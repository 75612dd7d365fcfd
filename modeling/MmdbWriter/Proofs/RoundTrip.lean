import MmdbWriter.Listing
import MmdbWriter.Proofs.Languages
import MmdbWriter.Proofs.Settles
import MmdbWriter.Proofs.Walks

/-!
# Reading a file back

A reader of the format finds in a file what the writer returns for every address of its space that the
aliases leave alone, as long as no array that it has to read has a misread header.
-/

namespace MmdbWriter

open BitTrie (leaf node)
open Mmdb (Decodes FindsAt Finds HasLayout)
open Value (SizeOk HeaderOk All)

/-- The address is one of an alias network, in a database with aliases. -/
def Writer.Aliases (w : Writer) (ip : IpAddr) : Prop :=
  w.ipVersion = .v6 ∧ w.ipv4Aliasing = .enabled ∧ ∃ net ∈ aliasNetworks, net.Covers .v6 ip

section Trie

variable {α : Type} [DecidableEq α]

theorem WriterBuilder.height_builtTrie_le (b : WriterBuilder) {t : BitTrie (Leaf α)}
    (h : t.height ≤ b.ipVersion.treeDepth) : (b.builtTrie t).height ≤ b.ipVersion.treeDepth := by
  refine (BitTrie.height_normKids_le _).trans ?_
  split_ifs with hv
  · unfold withAliases
    split_ifs
    · refine BitTrie.markAll_induct (P := fun t => t.height ≤ b.ipVersion.treeDepth)
        (fun p hp t ht => (BitTrie.height_markAt_le p t).trans (max_le ht ?_)) ?_
      · rw [hv.1]
        exact (aliasPaths_length p hp).2.trans (by decide)
      · rw [BitTrie.height_pinAt]
        exact h
    · exact h
  · exact h

end Trie

section Metadata

/-- A section decodes to one map, so it has one layout. -/
theorem hasLayout_unique {metadata : List UInt8} {layout layout' : Mmdb.Layout}
    (h : HasLayout metadata layout) (h' : HasLayout metadata layout') : layout = layout' := by
  obtain ⟨m, a, b, c, ⟨fuel, rest, hd⟩, ha, hb, hc, rfl⟩ := h
  obtain ⟨m', a', b', c', ⟨fuel', rest', hd'⟩, ha', hb', hc', rfl⟩ := h'
  have heq := decode_unique hd hd'
  rw [Prod.mk.injEq, Value.map.injEq] at heq
  obtain ⟨rfl, -⟩ := heq
  rw [ha, Option.some.injEq, Value.u32.injEq] at ha'
  rw [hb, Option.some.injEq, Value.u16.injEq] at hb'
  rw [hc, Option.some.injEq, Value.u16.injEq] at hc'
  rw [ha', hb', hc']

/-- The layout the metadata was written for. -/
def Metadata.layout (m : Metadata) : Mmdb.Layout :=
  ⟨m.nodeCount, m.recordSize.bits, m.ipVersion.metadata.toNat⟩

theorem Metadata.hasLayout {m : Metadata} (hs : All SizeOk m.toMap)
    (hl : ArrayLenOk m.languages.length) (hn : m.nodeCount < 2 ^ 32) :
    HasLayout m.toBytes m.layout := by
  obtain ⟨fields, hin⟩ := m.inline_toBytes
  have hd := hin.decodes ((headerOk_toMap m).mpr hl) hs
  rw [toMap_eq] at hd
  refine ⟨_, BitVec.ofNat 32 (min m.nodeCount u32Max), m.recordSize.asMetadata,
    m.ipVersion.metadata, hd, by simp [mapGet], by simp [mapGet], by simp [mapGet], ?_⟩
  have hcount : min m.nodeCount u32Max = m.nodeCount := by
    unfold u32Max
    omega
  have hsize : m.recordSize.asMetadata.toNat = m.recordSize.bits := by cases m.recordSize <;> rfl
  rw [hcount, hsize, BitVec.toNat_ofNat, Nat.mod_eq_of_lt hn]
  rfl

theorem addressBits_eq (ipVersion : IpVersion) (ip : IpAddr) :
    Mmdb.addressBits ipVersion.metadata.toNat ip = addrPath ipVersion ip := by
  cases ipVersion <;> cases ip <;> rfl

end Metadata

namespace Writer

/-- The parts of a file before the marker and behind it. -/
def Parts (w : Writer) (now : SystemTime) (database metadata : List UInt8) : Prop :=
  ∃ tree data idToOffset recordSize treeBytes, w.buildTree = .ok tree ∧
    pushIds w.pool tree.reachableDataIds DataSection.new [] = .ok (data, idToOffset) ∧
    pickRecordSize tree data.len w.recordSize = .ok recordSize ∧
    tree.serialize recordSize idToOffset = .ok treeBytes ∧
    database = treeBytes ++ dataSectionSeparator ++ data.bytes ∧
    metadata = (w.metadata now tree recordSize).toBytes

/-- The file is the writer's database, the marker and its metadata, and a lookup in it finds what the
writer returns, for every address of the database outside the alias networks. -/
def RoundTrips [Ipnet] (w : Writer) (now : SystemTime) (file : List UInt8) : Prop :=
  ∃ database metadata, w.Parts now database metadata ∧
    file = database ++ metadataMarker ++ metadata ∧
    ∀ ip, (addrPath w.ipVersion ip).isSome → ¬ w.Aliases ip →
      ∃ result, w.get ip = .ok result ∧ Finds database metadata ip result

/-- The texts of the metadata are below the limit. -/
structure TextsOk (w : Writer) : Prop where
  databaseType : All SizeOk (.string w.databaseType)
  description : All SizeOk (.map ((w.description.foldl (fun map e => mapInsert e.1 e.2 map) []).map
    fun e => (e.1, .string e.2)))
  languages : All SizeOk (.array (w.languages.map .string))

/-- No array that a lookup has to read has a misread header. -/
structure HeadersOk [Ipnet] (w : Writer) : Prop where
  languages : ArrayLenOk w.languages.length
  values : ∀ ip v, ¬ w.Aliases ip → w.get ip = .ok (some v) → All HeaderOk v

variable {w : Writer}

theorem TextsOk.all (h : w.TextsOk) (now : SystemTime) (tree : Tree) (recordSize : RecordSize) :
    All SizeOk (w.metadata now tree recordSize).toMap :=
  (Metadata.all_sizeOk_iff _).mpr ⟨h.databaseType, h.description, h.languages⟩

/-- Where the aliases leave an address alone, the built trie has what the writer's own has. -/
theorem eval_builtTrie {t : BitTrie (Leaf Value)} {ip : IpAddr} {q : List Bool}
    (hq : addrPath w.ipVersion ip = some q) (hno : ¬ w.Aliases ip) :
    (w.builtTrie t).eval q = t.eval q := by
  unfold WriterBuilder.builtTrie
  rw [BitTrie.eval_normKids]
  split_ifs with hv
  · have hlen := length_addrPath hq
    rw [hv.1] at hlen hq
    rw [eval_withAliases (by rw [hlen]; decide), if_neg]
    rintro ⟨-, p, hp, hpq, -⟩
    obtain ⟨net, hnet, hpath⟩ := List.mem_filterMap.mp hp
    exact hno ⟨hv.1, hv.2, net, hnet, (covers_iff_path hpath hq).mpr hpq⟩
  · rfl

variable [Ipnet]

theorem Grown.nodeCount_lt (hw : w.Grown) {t : Tree} (ht : w.buildTree = .ok t) {data : DataSection}
    {idToOffset : List (ValueId × ℕ)}
    (hpush : pushIds w.pool t.reachableDataIds DataSection.new [] = .ok (data, idToOffset))
    {size : RecordSize} {treeBytes : List UInt8}
    (hser : t.serialize size idToOffset = .ok treeBytes) : t.nodeCount < 2 ^ 32 := by
  obtain ⟨rec, hrec, hnone⟩ := hw.exists_leaf ht
  have hmax : size.maxValue ≤ 2 ^ 32 := by cases size <;> decide
  obtain ⟨n, hn, hle⟩ : ∃ n, Tree.recordValue t.nodeCount idToOffset rec = some n ∧
      t.nodeCount ≤ n := by
    cases rec with
    | noData | reserved => exact ⟨_, rfl, le_rfl⟩
    | data id =>
      obtain ⟨-, offset, -, -, -, hvalue, -⟩ := inline_of_record hpush hser hrec
      exact ⟨_, hvalue, by omega⟩
    | node i | fixedNode i | aliased i => cases hnone
  have := Tree.lt_of_serialize hser hrec hn
  omega

/-- What the walk along an address's bits ends at is what the writer returns for the address. -/
theorem Reachable.walk (hw : w.Reachable) {t : Tree} (ht : w.buildTree = .ok t) {data : DataSection}
    {idToOffset : List (ValueId × ℕ)}
    (hpush : pushIds w.pool t.reachableDataIds DataSection.new [] = .ok (data, idToOffset))
    {size : RecordSize} {treeBytes : List UInt8}
    (hser : t.serialize size idToOffset = .ok treeBytes) {ip : IpAddr} {q : List Bool}
    (hq : addrPath w.ipVersion ip = some q) (hno : ¬ w.Aliases ip) (more : List UInt8) :
    (w.get ip = .ok none ∧
      Mmdb.walk (treeBytes ++ more) t.nodeCount size.bits q 0 = some t.nodeCount) ∨
    ∃ v offset stop fields, w.get ip = .ok (some v) ∧ Mmdb.walk (treeBytes ++ more) t.nodeCount
      size.bits q 0 = some (t.nodeCount + 16 + offset) ∧ Inline data.bytes v offset stop fields := by
  obtain ⟨l, r, hinv⟩ := hw.inv
  obtain ⟨v4', l', r', hanchored, hst'⟩ := hw.grown.buildTree ht
  obtain ⟨t', u, ht', ⟨v4, lu, ru, rfl, hst⟩, hrel⟩ : ∃ t u, w.buildTree = .ok t ∧ t.Holds u ∧
      u.Rel (IdRel w.pool) (w.builtTrie (node false l r)) := by
    rcases hinv.models.buildTree hinv.unpinned hinv.not_aliased hw.indexed with h | ⟨n, hn, -⟩
    · exact h
    · rw [ht] at hn
      cases hn
  rw [ht, Except.ok.injEq] at ht'
  subst ht'
  have hwalk := Tree.walk_lookup hser more
    (fun rec hrec j hj => (Tree.target_lt_of_stores hanchored hst' hrec hj).1) q hst
  have hcov : (node false lu ru).coverAt q = some ((node false lu ru).eval q) := by
    refine BitTrie.coverAt_of_height_le ?_
    rw [hrel.height, length_addrPath hq]
    exact w.height_builtTrie_le hinv.height
  have hleaf := hrel.eval q
  rw [eval_builtTrie hq hno] at hleaf
  have hget := get_eq hinv.models hinv.height_lt.1 hinv.height_lt.2 hinv.not_aliased hq
  have hne := hinv.not_aliased q
  have hmem := Tree.leafRecord_mem (nodeStores_unpinned hst) (by simp) q
  generalize (node false lu ru).eval q = a at hcov hleaf hmem
  generalize (node false l r).eval q = b at hleaf hget hne
  have hrec : a ≠ .aliased → Mmdb.walk (treeBytes ++ more) t.nodeCount size.bits q 0 =
      Tree.recordValue t.nodeCount idToOffset (leafRecord v4 a) := fun ha =>
    hwalk.trans (BitTrie.lookup_of_coverAt (Leaf.recordAt_of_ne v4 ha) hcov)
  cases a with
  | noData | reserved =>
    cases b <;> try exact hleaf.elim
    exact Or.inl ⟨hget, hrec (by simp)⟩
  | aliased =>
    cases b <;> try exact hleaf.elim
    exact absurd rfl hne
  | data id =>
    cases b with
    | data v =>
      obtain ⟨v', offset, stop, fields, hv', hvalue, hin⟩ := inline_of_record hpush hser hmem
      have hv : w.pool.values[id]? = some v := hleaf
      rw [hv, Option.some.injEq] at hv'
      subst hv'
      exact Or.inr ⟨v, offset, stop, fields, hget, (hrec (by simp)).trans hvalue, hin⟩
    | noData | reserved | aliased => exact hleaf.elim

theorem exists_of_get {ip : IpAddr} {v : Value} (h : w.get ip = .ok (some v)) :
    ∃ id : ℕ, w.pool.values[id]? = some v := by
  unfold get at h
  split at h
  · cases h
  · rename_i bits _ _
    rcases hid : w.tree.get bits w.ipVersion.treeDepth with e | _ | id <;>
      simp only [hid, bind, Except.bind, reduceCtorEq, Except.ok.injEq] at h
    refine ⟨id, ?_⟩
    unfold ValuePool.get at h
    cases hv : w.pool.values[id]? <;> simp [hv] at h
    rw [h]

theorem isSome_of_get {ip : IpAddr} {v : Value} (h : w.get ip = .ok (some v)) :
    (addrPath w.ipVersion ip).isSome := by
  by_contra hq
  rw [get_of_addrPath_none (by simpa using hq)] at h
  cases h

omit [Ipnet] in
/-- One address at least is in the database and in no alias network. -/
theorem exists_not_aliases (w : Writer) :
    (addrPath w.ipVersion (.v4 0)).isSome ∧ ¬ w.Aliases (.v4 0) := by
  refine ⟨by cases w.ipVersion <;> rfl, ?_⟩
  rintro ⟨-, -, hnet⟩
  revert hnet
  decide +kernel

theorem Reachable.roundTrips (hw : w.Reachable) {now : SystemTime} {file : List UInt8}
    (h : w.toBytes now = .ok file) (hsizes : ∀ ip v, w.get ip = .ok (some v) → All SizeOk v)
    (htexts : w.TextsOk) (hheaders : w.HeadersOk) : w.RoundTrips now file := by
  obtain ⟨t, data, idToOffset, size, treeBytes, ht, hpush, hpick, hser, rfl⟩ := toBytes_eq_ok.mp h
  refine ⟨_, _, ⟨t, data, idToOffset, size, treeBytes, ht, hpush, hpick, hser, rfl, rfl⟩, rfl,
    fun ip hip hno => ?_⟩
  obtain ⟨q, hq⟩ := Option.isSome_iff_exists.mp hip
  have hcount := hw.grown.nodeCount_lt ht hpush hser
  have hlayout := Metadata.hasLayout (htexts.all now t size) hheaders.languages hcount
  have hbits : Mmdb.addressBits w.ipVersion.metadata.toNat ip = some q := by
    rw [addressBits_eq, hq]
  rcases hw.walk ht hpush hser hq hno (dataSectionSeparator ++ data.bytes) with
    ⟨hget, hwalk⟩ | ⟨v, offset, stop, fields, hget, hwalk, hin⟩ <;> rw [← List.append_assoc] at hwalk
  · exact ⟨none, hget, _, q, hlayout, hbits, _, hwalk, rfl⟩
  · refine ⟨some v, hget, _, q, hlayout, hbits, offset, ⟨_, hwalk, rfl⟩, ?_⟩
    have hd := hin.decodes (hheaders.values ip v hno hget) (hsizes ip v hget)
    rw [← dataSection_parts hser data.bytes] at hd
    exact hd

theorem RoundTrips.headersOk (hw : w.Reachable) {now : SystemTime} {file : List UInt8}
    (h : w.RoundTrips now file) (hsizes : ∀ ip v, w.get ip = .ok (some v) → All SizeOk v)
    (htexts : w.TextsOk) : w.HeadersOk := by
  obtain ⟨database, metadata, ⟨t, data, idToOffset, size, treeBytes, ht, hpush, -, hser, rfl, rfl⟩,
    -, hfinds⟩ := h
  have hcount := hw.grown.nodeCount_lt ht hpush hser
  have hlang : ArrayLenOk w.languages.length := by
    by_contra hbad
    obtain ⟨hip, hno⟩ := w.exists_not_aliases
    obtain ⟨-, -, layout, -, hlayout, -⟩ := hfinds _ hip hno
    exact Metadata.not_hasLayout (htexts.all now t size) hbad layout hlayout
  refine ⟨hlang, fun ip v hno hget => ?_⟩
  by_contra hbad
  obtain ⟨q, hq⟩ := Option.isSome_iff_exists.mp (isSome_of_get hget)
  obtain ⟨result, hget', layout, bits, hlayout, hbits, hfound⟩ := hfinds ip (isSome_of_get hget) hno
  rw [hget, Except.ok.injEq] at hget'
  subst hget'
  obtain rfl := hasLayout_unique hlayout (Metadata.hasLayout (htexts.all now t size) hlang hcount)
  have hbits' : Mmdb.addressBits w.ipVersion.metadata.toNat ip = some q := by
    rw [addressBits_eq, hq]
  obtain rfl : q = bits := Option.some.inj (hbits'.symm.trans hbits)
  obtain ⟨offset, ⟨record, hrecord, rfl⟩, fuel, rest, hd⟩ := hfound
  have hrecord : Mmdb.walk (treeBytes ++ dataSectionSeparator ++ data.bytes) t.nodeCount size.bits q
    0 = some (t.nodeCount + 16 + offset) := hrecord
  rw [List.append_assoc] at hrecord
  rcases hw.walk ht hpush hser hq hno (dataSectionSeparator ++ data.bytes) with
    ⟨hget', -⟩ | ⟨v', offset', stop, fields, hget', hwalk, hin⟩ <;> rw [hget] at hget'
  · cases hget'
  · rw [Except.ok.injEq, Option.some.injEq] at hget'
    subst hget'
    rw [hwalk, Option.some.injEq, Nat.add_right_inj] at hrecord
    subst hrecord
    have hd : Mmdb.decode (Mmdb.dataSection (treeBytes ++ dataSectionSeparator ++ data.bytes)
      t.nodeCount size.bits) fuel ((Mmdb.dataSection (treeBytes ++ dataSectionSeparator ++ data.bytes)
      t.nodeCount size.bits).drop offset') = some (v, rest) := hd
    rw [dataSection_parts hser data.bytes] at hd
    exact misreadAt_inline.1 v hbad (hsizes ip v hget) _ _ _ hin fuel rest hd

/-- A file is read back where no text of the metadata is past the limit and no array that a lookup
reads has a misread header, and with such texts nowhere else. -/
theorem roundTrips_iff (hw : w.Reachable) {now : SystemTime} {file : List UInt8}
    (h : w.toBytes now = .ok file) (hsizes : ∀ ip v, w.get ip = .ok (some v) → All SizeOk v) :
    (w.TextsOk ∧ w.HeadersOk → w.RoundTrips now file) ∧
      (w.TextsOk → w.RoundTrips now file → w.HeadersOk) :=
  ⟨fun hok => hw.roundTrips h hsizes hok.1 hok.2, fun htexts hround =>
    hround.headersOk hw hsizes htexts⟩

omit [Ipnet] in
/-- A small V6 database with aliases. -/
theorem city_file :
    let _ := Ipnet.std
    let b : WriterBuilder :=
      { databaseType := "City", ipVersion := .v6, languages := ["en", "de"] }
    let net : IpNet := .v4 ⟨0x01000000, 8, by decide⟩
    ∃ (w w' : Writer) (file : List UInt8), b.build = .ok w ∧
      insertValue net (.string "a") w = (.ok (), w') ∧ w'.Reachable ∧ w'.toWriterBuilder = b ∧
      w'.toBytes 0 = .ok file ∧ w'.pool.values = [.string "a"] ∧ w'.tree.nodes.length ≤ 256 ∧
      w'.networks =
        .ok [(v4Path ++ [false, false, false, false, false, false, false, true], .string "a")] := by
  intro _ b net
  let w : Writer := { toWriterBuilder := b, tree := Tree.new, pool := ValuePool.new }
  let w' : Writer := (insertValue net (.string "a") w).2
  -- one evaluation, as the steps share the tree
  obtain ⟨hok, hpool, hnodes, hfile, hnets⟩ : (insertValue net (.string "a") w).1 = .ok () ∧
      w'.pool.values = [.string "a"] ∧ w'.tree.nodes.length ≤ 256 ∧
      (w'.toBytes 0).isOk = true ∧ w'.networks =
        .ok [(v4Path ++ [false, false, false, false, false, false, false, true], .string "a")] := by
    decide +kernel
  have hno : ((Insert.value net (.string "a")).exec w).1 ≠ .error .panic := by
    show (insertValue net (.string "a") w).1 ≠ _
    rw [hok]
    decide
  have hw : w.Reachable := .of_build (b := b) rfl
  obtain ⟨l, r, hinv⟩ := hw.inv
  rcases hbytes : w'.toBytes 0 with e | file
  · rw [hbytes] at hfile
    cases hfile
  · exact ⟨w, w', file, rfl, Prod.ext hok rfl, hw.exec (.insert (.value net (.string "a"))) hno,
      (hinv.insert_keeps (.value net (.string "a")) hno).1, hbytes, hpool, hnodes, hnets⟩

omit [Ipnet] in
/-- The languages and the string of a small database are read back. -/
theorem roundTrips_iff_city :
    let _ := Ipnet.std
    let b : WriterBuilder :=
      { databaseType := "City", ipVersion := .v6, languages := ["en", "de"] }
    ∃ (w w' : Writer) (file : List UInt8), b.build = .ok w ∧
      w' = (insertValue (.v4 ⟨0x01000000, 8, by decide⟩) (.string "a") w).2 ∧
      w'.toBytes 0 = .ok file ∧ w'.RoundTrips 0 file := by
  intro _ b
  obtain ⟨w, w', file, hb, hins, hw', hopt, hfile, hpool, -⟩ := city_file
  have hvalue : ∀ ip v, w'.get ip = .ok (some v) → v = .string "a" := fun ip v hget => by
    obtain ⟨id, hid⟩ := exists_of_get hget
    rw [hpool] at hid
    simpa using List.mem_of_getElem? hid
  have hok := (roundTrips_iff hw' hfile fun ip v hget => by
    rw [hvalue ip v hget]
    decide +kernel).1
  refine ⟨w, w', file, hb, by rw [hins], hfile, hok ⟨⟨?_, ?_, ?_⟩, ?_, fun ip v _ hget => ?_⟩⟩
  · rw [hopt]
    decide +kernel
  · rw [hopt]
    decide +kernel
  · rw [hopt]
    decide +kernel
  · rw [hopt]
    decide +kernel
  · rw [hvalue ip v hget]
    decide +kernel

omit [Ipnet] in
/-- With 29 languages no reader finds the node count. -/
theorem not_roundTrips_languages :
    let _ := Ipnet.std
    let b : WriterBuilder :=
      { databaseType := "City", ipVersion := .v4, languages := List.replicate 29 "en" }
    ∃ (w : Writer) (file : List UInt8), b.build = .ok w ∧ w.Reachable ∧
      (∀ ip v, w.get ip = .ok (some v) → All SizeOk v) ∧ file.length < 2 ^ 32 ∧
      w.toBytes 0 = .ok file ∧ ¬ w.RoundTrips 0 file := by
  intro _ b
  let w : Writer := { toWriterBuilder := b, tree := Tree.new, pool := ValuePool.new }
  let file : List UInt8 := (w.toBytes 0).toOption.getD []
  have hb : b.build = .ok w := rfl
  have hw : w.Reachable := .of_build hb
  have hfile : w.toBytes 0 = .ok file := by decide +kernel
  have hno : ∀ ip v, w.get ip = .ok (some v) → All SizeOk v := fun ip v hget => by
    obtain ⟨id, hid⟩ := exists_of_get hget
    simp [w, ValuePool.new] at hid
  refine ⟨w, file, hb, hw, hno, by decide +kernel, hfile, fun hround => ?_⟩
  have hlang := (hround.headersOk hw hno
    ⟨by decide +kernel, by decide +kernel, by decide +kernel⟩).languages
  revert hlang
  decide +kernel

end Writer

end MmdbWriter
