import MmdbWriter.Proofs.PointerFree
import MmdbWriter.Proofs.Referred

/-!
# Sizes and offsets of a file

No offset of a file is cut off: an entry past the range of an offset has length zero, so that no
pointer takes it, and a record has no room for it. But nothing checks a size, and the three bytes that
extend one are cut from a larger number; the type of an array follows these bytes, where a reader looks
for the size; and only the records are checked against a record size that is asked for, not the end of
the data section.
-/

namespace MmdbWriter

open Value (SizeOk HeaderOk All)

section Sizes

/-- A reader finds the type and the size in a header, whatever comes after it. -/
def ReadsBack (header : List UInt8) (type size : ℕ) : Prop :=
  ∀ rest, Mmdb.readHeader (header ++ rest) = some (.data type size, rest)

theorem readSize_lt {type field : ℕ} (hfield : field < 32) {b rest : List UInt8} {t size : ℕ}
    (h : Mmdb.readSize type field b = some (.data t size, rest)) : size < sizeLimit := by
  unfold Mmdb.readSize at h
  unfold sizeLimit
  by_cases hsmall : field < 29
  · rw [if_pos hsmall, Option.some.injEq, Prod.mk.injEq, Mmdb.Header.data.injEq] at h
    omega
  · rw [if_neg hsmall] at h
    simp only [Option.bind_eq_bind, Option.bind_eq_some_iff, Option.some.injEq, Prod.mk.injEq,
      Mmdb.Header.data.injEq] at h
    obtain ⟨⟨ext, b'⟩, hread, ⟨-, hsize⟩, -⟩ := h
    have hext := Bytes.readBe_lt hread
    have hcases : field = 29 ∨ field = 30 ∨ field = 31 := by omega
    rcases hcases with rfl | rfl | rfl <;> norm_num at hext hsize <;> omega

/-- No header announces a size past the limit. -/
theorem readHeader_lt {b rest : List UInt8} {t size : ℕ}
    (h : Mmdb.readHeader b = some (.data t size, rest)) : size < sizeLimit := by
  unfold Mmdb.readHeader at h
  split at h
  · cases h
  · rename_i c b'
    have hfield : c.toNat % 32 < 32 := Nat.mod_lt _ (by decide)
    dsimp only at h
    split_ifs at h
    · unfold Mmdb.readPointer at h
      simp only [Option.bind_eq_bind, Option.bind_eq_some_iff, Option.some.injEq, Prod.mk.injEq,
        reduceCtorEq, false_and, and_false, exists_false] at h
    · split at h
      · cases h
      · exact readSize_lt hfield h
    · exact readSize_lt hfield h

theorem readsBack_controlByte (tag : TypeTag) (hext : tag ≠ .extended) (hptr : tag ≠ .pointer)
    (size : ℕ) : ReadsBack (controlByte tag size) tag.code.toNat size ↔ size < sizeLimit :=
  ⟨fun h => readHeader_lt (h []), fun h rest => readHeader_controlByte tag hext hptr h rest⟩

theorem ArrayLenOk.lt {n : ℕ} (h : ArrayLenOk n) : n < sizeLimit := by
  unfold ArrayLenOk at h
  unfold sizeLimit
  omega

theorem readsBack_array (n : ℕ) : ReadsBack (extendedHeader .array n) 11 n ↔ ArrayLenOk n := by
  constructor
  · intro h
    have hlt := readHeader_lt (h [])
    have hread := (readHeader_array hlt []).symm.trans (h [])
    simp only [Option.some.injEq, Prod.mk.injEq, Mmdb.Header.data.injEq, and_true] at hread
    exact (arrayHeader_eq_iff hlt).mp (Prod.ext hread.1 hread.2)
  · intro h rest
    rw [readHeader_array h.lt, (arrayHeader_eq_iff h.lt).mpr h]

namespace Value

/-- The header that `encode` writes for the value reads back as its type and its size. -/
def SizeTrue : Value → Prop
  | string s => ReadsBack (controlByte .utf8 (strBytes s).length) 2 (strBytes s).length
  | bytes b => ReadsBack (controlByte .bytes b.length) 4 b.length
  | map m => ReadsBack (controlByte .map m.length) 7 m.length
  | array items => ReadsBack (extendedHeader .array items.length) 11 items.length
  | _ => True

theorem sizeTrue_iff (v : Value) : v.SizeTrue ↔ v.SizeOk ∧ v.HeaderOk := by
  cases v with
  | string s => exact (readsBack_controlByte .utf8 (by decide) (by decide) _).trans (by simp [SizeOk, HeaderOk])
  | bytes b => exact (readsBack_controlByte .bytes (by decide) (by decide) _).trans (by simp [SizeOk, HeaderOk])
  | map m => exact (readsBack_controlByte .map (by decide) (by decide) _).trans (by simp [SizeOk, HeaderOk])
  | array items => exact (readsBack_array _).trans ⟨fun h => ⟨h.lt, h⟩, fun h => h.2⟩
  | double _ | u16 _ | u32 _ | i32 _ | u64 _ | u128 _ | bool _ | float _ =>
    simp [SizeTrue, SizeOk, HeaderOk]

/-- A size that a header can announce, and not that of an array with a misread header. -/
def Announced (v : Value) : Prop := v.SizeOk ∧ v.HeaderOk

theorem all_sizeTrue_iff {v : Value} : All SizeTrue v ↔ All Announced v :=
  ⟨(all_mono fun v => (sizeTrue_iff v).mp).1 v, (all_mono fun v => (sizeTrue_iff v).mpr).1 v⟩

end Value

end Sizes

open Value (SizeTrue Announced)

/-- The values that the records of the tree refer to, each once, in the order of the nodes. -/
def Tree.values (t : Tree) (pool : ValuePool) : List Value :=
  t.reachableDataIds.filterMap (pool.values[·]?)

/-- The sizes and offsets of a file are true: a record leads to the place of its value, every pointer
to the place of what it stands for, every header reads back, and there is an offset for every byte of
the data section. -/
structure Tree.Truthful (t : Tree) (pool : ValuePool) (recordSize : RecordSize)
    (database : List UInt8) (metadata : Metadata) : Prop where
  records : ∀ (i : ℕ) (n : Node), t.nodes[i]? = some n → ∀ b id, n.child b = .data id →
    ∃ v offset stop fields, pool.values[id]? = some v ∧
      Mmdb.readRecord database recordSize.bits i b = some (t.nodeCount + 16 + offset) ∧
      Inline (Mmdb.dataSection database t.nodeCount recordSize.bits) v offset stop fields
  pointers : ∃ tops fields, ItemsAt (Mmdb.dataSection database t.nodeCount recordSize.bits) tops 0
    (Mmdb.dataSection database t.nodeCount recordSize.bits).length fields
  sizes : ∀ id ∈ t.reachableDataIds, ∀ v, pool.values[id]? = some v → All SizeTrue v
  addressed : (Mmdb.dataSection database t.nodeCount recordSize.bits).length ≤ u32Max + 1
  metadata_pointers : ∃ fields,
    Inline metadata.toBytes metadata.toMap 0 metadata.toBytes.length fields
  metadata_sizes : All SizeTrue metadata.toMap

namespace Metadata

/-- What holds of the numbers and of the names of the fields is decided by the texts. -/
theorem all_toMap_iff {P : Value → Prop} (m : Metadata)
    (hmap : ∀ fields : List (String × Value), fields.length = 9 → P (.map fields))
    (hkeys : ∀ k ∈ ["binary_format_major_version", "binary_format_minor_version", "build_epoch",
      "database_type", "description", "ip_version", "languages", "node_count", "record_size"],
      P (.string k)) (h16 : ∀ n, P (.u16 n)) (h32 : ∀ n, P (.u32 n)) (h64 : ∀ n, P (.u64 n)) :
    All P m.toMap ↔ All P (.string m.databaseType) ∧
      All P (.map (m.descriptions.map fun e => (e.1, .string e.2))) ∧
      All P (.array (m.languages.map .string)) := by
  simp only [List.forall_mem_cons] at hkeys
  obtain ⟨h₁, h₂, h₃, h₄, h₅, h₆, h₇, h₈, h₉, -⟩ := hkeys
  rw [toMap_eq]
  constructor
  · rintro ⟨-, -, -, -, -, -, -, -, htype, -, hdesc, -, -, -, hlang, -⟩
    exact ⟨htype, hdesc, hlang⟩
  · rintro ⟨htype, hdesc, hlang⟩
    exact ⟨hmap _ rfl, h₁, h16 _, h₂, h16 _, h₃, h64 _, h₄, htype, h₅, hdesc, h₆, h16 _, h₇, hlang, h₈, h32 _,
      h₉, h16 _, trivial⟩

theorem sizeOk_fields (fields : List (String × Value)) (h : fields.length = 9) :
    SizeOk (.map fields) := by
  show fields.length < sizeLimit
  rw [h]
  decide

theorem all_sizeOk_iff (m : Metadata) : All SizeOk m.toMap ↔ All SizeOk (.string m.databaseType) ∧
    All SizeOk (.map (m.descriptions.map fun e => (e.1, .string e.2))) ∧
    All SizeOk (.array (m.languages.map .string)) :=
  m.all_toMap_iff sizeOk_fields (by decide +kernel) (fun _ => trivial) (fun _ => trivial)
    fun _ => trivial

theorem all_announced_iff (m : Metadata) :
    All Announced m.toMap ↔ All Announced (.string m.databaseType) ∧
      All Announced (.map (m.descriptions.map fun e => (e.1, .string e.2))) ∧
      All Announced (.array (m.languages.map .string)) :=
  m.all_toMap_iff (fun fields h => ⟨sizeOk_fields fields h, trivial⟩)
    (fun k hk => ⟨by revert k; decide +kernel, trivial⟩)
    (fun _ => ⟨trivial, trivial⟩) (fun _ => ⟨trivial, trivial⟩) fun _ => ⟨trivial, trivial⟩

theorem inline_toBytes (m : Metadata) :
    ∃ fields, Inline m.toBytes m.toMap 0 m.toBytes.length fields := by
  obtain ⟨d, hd, hb, hl⟩ : ∃ d : DataSection, m.toBytes = (d.push m.toMap).1.bytes ∧ d.bytes = [] ∧
      d.dedup = [] := by
    unfold toBytes
    split_ifs <;> exact ⟨_, rfl, rfl, rfl⟩
  obtain ⟨fields, hin, -⟩ := DataSection.encode_leaves.1 m.toMap d _ (DataSection.sound_empty hb hl).good
  rw [hd, DataSection.push_of_none (by rw [hl]; rfl)]
  rw [hb] at hin
  exact ⟨fields, hin⟩

end Metadata

namespace Writer

section Parts

variable {t : Tree} {size : RecordSize} {idToOffset : List (ValueId × ℕ)} {treeBytes : List UInt8}

/-- A reader takes what follows the tree and the separator for the data section. -/
theorem dataSection_parts (hser : t.serialize size idToOffset = .ok treeBytes) (data : List UInt8) :
    Mmdb.dataSection (treeBytes ++ dataSectionSeparator ++ data) t.nodeCount size.bits = data := by
  unfold Mmdb.dataSection
  have hfront : t.nodeCount * (size.bits / 4) + 16 =
      (treeBytes ++ dataSectionSeparator).length := by
    rw [List.length_append, Tree.length_serialize hser]
    cases size <;> rfl
  rw [hfront, List.drop_left]

theorem inline_of_record {pool : ValuePool} {data : DataSection}
    (hpush : pushIds pool t.reachableDataIds DataSection.new [] = .ok (data, idToOffset))
    (hser : t.serialize size idToOffset = .ok treeBytes) {id : ValueId}
    (hrec : .data id ∈ t.records) : ∃ v offset stop fields, pool.values[id]? = some v ∧
      Tree.recordValue t.nodeCount idToOffset (.data id) = some (t.nodeCount + 16 + offset) ∧
      Inline data.bytes v offset stop fields := by
  obtain ⟨values, -, rfl, hlookup⟩ := lookup_pushIds hpush
  obtain ⟨v, offset, hoff, hv, hmem⟩ := hlookup id (Tree.mem_reachableDataIds.mpr hrec)
  have hvalue : Tree.recordValue t.nodeCount idToOffset (.data id) =
      some (t.nodeCount + 16 + offset) := by
    rw [Tree.recordValue, hoff]
    rfl
  have hlt := Tree.lt_of_serialize hser hrec hvalue
  have hmax : size.maxValue ≤ 2 ^ 32 := by cases size <;> decide
  obtain ⟨stop, fields, hin⟩ := DataSection.inline_offset DataSection.sound_new hmem (by
    unfold u32Max
    omega)
  exact ⟨v, offset, stop, fields, hv, hvalue, hin⟩

theorem filterMap_of_forall₂ {α β : Type} {f : α → Option β} {as : List α} {bs : List β}
    (h : List.Forall₂ (fun a b => f a = some b) as bs) : as.filterMap f = bs := by
  induction h with
  | nil => rfl
  | cons hab _ ih => rw [List.filterMap_cons_some hab, ih]

/-- The section of the ids is that of their values. -/
theorem data_of_pushIds {pool : ValuePool} {data : DataSection}
    (hpush : pushIds pool t.reachableDataIds DataSection.new [] = .ok (data, idToOffset)) :
    data = DataSection.ofValues (t.values pool) := by
  obtain ⟨values, hvalues, rfl, -⟩ := pushIds_spec hpush
  rw [Tree.values, filterMap_of_forall₂ hvalues]
  rfl

end Parts

variable [Ipnet] {w : Writer}

/-- The sizes and offsets of the file of a writer are true. -/
def Truthful (w : Writer) (now : SystemTime) (file : List UInt8) : Prop :=
  ∃ tree data idToOffset recordSize treeBytes, w.buildTree = .ok tree ∧
    pushIds w.pool tree.reachableDataIds DataSection.new [] = .ok (data, idToOffset) ∧
    pickRecordSize tree data.len w.recordSize = .ok recordSize ∧
    tree.serialize recordSize idToOffset = .ok treeBytes ∧
    file = treeBytes ++ dataSectionSeparator ++ data.bytes ++ metadataMarker ++
      (w.metadata now tree recordSize).toBytes ∧
    tree.Truthful w.pool recordSize (treeBytes ++ dataSectionSeparator ++ data.bytes)
      (w.metadata now tree recordSize)

/-- A header can announce the sizes in the values the tree refers to and in the writer's texts, no array
has a misread header, and with a record size that is asked for the values of the built tree take no more
bytes than there are offsets. -/
structure SizesOk (w : Writer) : Prop where
  values : ∀ id, w.tree.Refers id → ∀ v, w.pool.values[id]? = some v → All Announced v
  databaseType : All Announced (.string w.databaseType)
  description : All Announced (.map ((w.description.foldl (fun map e => mapInsert e.1 e.2 map) []).map
    fun e => (e.1, .string e.2)))
  languages : All Announced (.array (w.languages.map .string))
  addressed : ∀ size tree, w.recordSize = some size → w.buildTree = .ok tree →
    (DataSection.ofValues (tree.values w.pool)).len ≤ u32Max + 1

omit [Ipnet] in
/-- A section that a size is picked for ends in the range of the offsets. -/
theorem lt_of_pickRecordSize {t : Tree} {dataLen : ℕ} {size : RecordSize}
    (h : pickRecordSize t dataLen none = .ok size) : dataLen < 2 ^ 32 := by
  unfold pickRecordSize at h
  simp only [] at h
  split at h
  · rename_i size' hfind
    have hfits := List.find?_some hfind
    simp only [Tree.fitsRecordSize, decide_eq_true_eq] at hfits
    have hmax : size'.maxValue ≤ 2 ^ 32 := by cases size' <;> decide
    omega
  · cases h

/-- No offset of a file is cut off, whatever its length. -/
theorem Grown.truthful (hw : w.Grown) {now : SystemTime} {file : List UInt8}
    (h : w.toBytes now = .ok file) (hsizes : w.SizesOk) : w.Truthful now file := by
  obtain ⟨t, data, idToOffset, size, treeBytes, ht, hpush, hpick, hser, rfl⟩ :=
    toBytes_eq_ok.mp h
  have hsection := dataSection_parts hser data.bytes
  refine ⟨t, data, idToOffset, size, treeBytes, ht, hpush, hpick, hser, rfl, ?_, ?_, ?_, ?_,
    Metadata.inline_toBytes _, ?_⟩
  · intro i n hn b id hid
    have hrec : .data id ∈ t.records := Tree.mem_records.mpr ⟨i, n, hn, by
      cases b
      · exact Or.inl hid.symm
      · exact Or.inr hid.symm⟩
    obtain ⟨v, offset, stop, fields, hv, hvalue, hin⟩ := inline_of_record hpush hser hrec
    refine ⟨v, offset, stop, fields, hv, ?_, ?_⟩
    · rw [List.append_assoc, Tree.readRecord_serialize_append hser hn, hid, hvalue]
    · rw [hsection]
      exact hin
  · obtain ⟨values, -, rfl, -⟩ := lookup_pushIds hpush
    obtain ⟨-, tops, fields, -, hsound⟩ := DataSection.pushAll_sound values DataSection.sound_new
    rw [hsection]
    exact ⟨_, fields, hsound.items⟩
  · intro id hid v hv
    exact Value.all_sizeTrue_iff.mpr (hsizes.values id ((hw.mem_reachableDataIds ht).mp hid) v hv)
  · rw [hsection]
    cases hsize : w.recordSize with
    | none =>
      rw [hsize] at hpick
      exact (lt_of_pickRecordSize hpick).le
    | some size' =>
      have haddr := hsizes.addressed size' t hsize ht
      rwa [← data_of_pushIds hpush] at haddr
  · exact Value.all_sizeTrue_iff.mpr ((Metadata.all_announced_iff _).mpr
      ⟨hsizes.databaseType, hsizes.description, hsizes.languages⟩)

/-- The sizes and offsets of a file are true exactly when a header can announce every size, no array has
a misread header, and a section of a size that is asked for ends where the offsets do. -/
theorem truthful_iff (hw : w.Grown) {now : SystemTime} {file : List UInt8}
    (h : w.toBytes now = .ok file) : w.Truthful now file ↔ w.SizesOk := by
  refine ⟨?_, hw.truthful h⟩
  rintro ⟨t, data, idToOffset, size, treeBytes, ht, hpush, -, hser, -, htrue⟩
  have hmeta := (Metadata.all_announced_iff _).mp (Value.all_sizeTrue_iff.mp htrue.metadata_sizes)
  refine ⟨fun id hid v hv => ?_, hmeta.1, hmeta.2.1, hmeta.2.2, fun _ t' _ ht' => ?_⟩
  · exact Value.all_sizeTrue_iff.mp (htrue.sizes id ((hw.mem_reachableDataIds ht).mpr hid) v hv)
  · obtain rfl : t = t' := Except.ok.inj (ht.symm.trans ht')
    have haddr := htrue.addressed
    rwa [dataSection_parts hser, data_of_pushIds hpush] at haddr

omit [Ipnet] in
/-- A file with the value `a` for one network. -/
theorem truthful_iff_short :
    let _ := Ipnet.std
    let b : WriterBuilder := { databaseType := "City", ipVersion := .v4 }
    ∃ (w w' : Writer) (file : List UInt8), b.build = .ok w ∧
      w' = (insertValue (.v4 ⟨0x01000000, 8, by decide⟩) (.string "a") w).2 ∧
      w'.toBytes 0 = .ok file ∧ (w'.Truthful 0 file ↔ w'.SizesOk) := by
  intro _ b
  let w : Writer := { toWriterBuilder := b, tree := Tree.new, pool := ValuePool.new }
  let w' : Writer := (insertValue (.v4 ⟨0x01000000, 8, by decide⟩) (.string "a") w).2
  let file : List UInt8 := (w'.toBytes 0).toOption.getD []
  have hb : b.build = .ok w := rfl
  have hw' : w'.Grown := .insertValue (.build hb) _ _ (by decide +kernel)
  have hfile : w'.toBytes 0 = .ok file := by decide +kernel
  exact ⟨w, w', file, hb, rfl, hfile, truthful_iff hw' hfile⟩

omit [Ipnet] in
theorem pushIds_single {pool : ValuePool} {id : ValueId} {v : Value}
    (h : pool.values[id]? = some v) : pushIds pool [id] DataSection.new [] =
      .ok ((DataSection.new.push v).1, [(id, 0)]) := by
  have hoff : (DataSection.new.push v).2 = 0 := by
    rw [DataSection.push_of_none rfl]
    rfl
  unfold pushIds ValuePool.get
  rw [h]
  simp only [bind, Except.bind, pushIds, hoff]

omit [Ipnet] in
/-- 16,843,037 bytes under one network give a file in which their size reads as 65,821. -/
theorem not_truthful_blob :
    let _ := Ipnet.std
    let b : WriterBuilder :=
      { databaseType := "City", ipVersion := .v4, recordSize := some .bits24 }
    ∃ (w w' : Writer) (file : List UInt8), b.build = .ok w ∧
      w' = (insertValue (.v4 ⟨0, 1, by decide⟩) (.bytes (List.replicate 16843037 0)) w).2 ∧
      w'.toBytes 0 = .ok file ∧ ¬ w'.Truthful 0 file := by
  intro _ b
  let w : Writer := { toWriterBuilder := b, tree := Tree.new, pool := ValuePool.new }
  let wrote : Value → Writer := fun v => (insertValue (.v4 ⟨0, 1, by decide⟩) v w).2
  let t : Tree := ⟨[⟨.data 0, .noData⟩]⟩
  have hb : b.build = .ok w := rfl
  -- nothing but the data section depends on the value
  have hpool : ∀ v, (wrote v).pool.values[0]? = some v := fun v => rfl
  have htree : ∀ v, (wrote v).buildTree = .ok t := by
    intro v
    have hopt : (wrote v).toWriterBuilder = b := rfl
    have hnodes : (wrote v).tree = ⟨[⟨.data 0, .noData⟩, ⟨.data 0, .data 0⟩]⟩ := rfl
    unfold buildTree
    rw [hopt, hnodes]
    decide +kernel
  have hids : t.reachableDataIds = [0] := by decide
  have hser : t.serialize .bits24 [(0, 0)] =
      .ok ((t.serialize .bits24 [(0, 0)]).toOption.getD []) := by decide +kernel
  generalize hv : Value.bytes (List.replicate 16843037 0) = v
  refine ⟨w, wrote v, _, hb, rfl, toBytes_eq_ok.mpr ⟨t, _, _, .bits24, _, htree v,
    (by rw [hids]; exact pushIds_single (hpool v)), rfl, hser, rfl⟩, ?_⟩
  rintro ⟨t', _, _, _, _, ht', -, -, -, -, htrue⟩
  rw [htree v, Except.ok.injEq] at ht'
  subst ht'
  have hread := htrue.sizes 0 (by rw [hids]; simp) v (hpool v)
  rw [← hv] at hread
  have hsize := (readsBack_controlByte .bytes (by decide) (by decide) _).mp hread
  rw [List.length_replicate] at hsize
  exact absurd hsize (by decide)

end Writer

end MmdbWriter
