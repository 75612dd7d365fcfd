import MmdbWriter.Load
import MmdbWriter.Proofs.Projected
import MmdbWriter.Proofs.Within

/-!
# Readers of a file

A load relies on a reader that finds in a file what the format says. A reader that returns the options
and the networks of the writer of the file is one.
-/

namespace MmdbWriter

open LastWins (Ascending)
open Mmdb (Decodes HasLayout)
open Value (SizeOk HeaderOk All)

/-- The file before its last marker and behind it. -/
def Mmdb.Splits (file database metadata : List UInt8) : Prop :=
  file = database ++ Writer.metadataMarker ++ metadata ∧
    Writer.LastStart Writer.metadataMarker file database.length

/-- The metadata are the fields of the map. -/
structure Maxminddb.Metadata.Of (md : Maxminddb.Metadata) (m : List (String × Value)) : Prop where
  buildEpoch : ∀ n, mapGet "build_epoch" m = some (.u64 n) → md.buildEpoch = n
  databaseType : ∀ s, mapGet "database_type" m = some (.string s) → md.databaseType = s
  description : ∀ d : List (String × String), Ascending d → mapGet "description" m =
    some (.map (d.map fun e => (e.1, .string e.2))) → md.description = d
  ipVersion : ∀ n, mapGet "ip_version" m = some (.u16 n) → md.ipVersion = n
  languages : ∀ l : List String, mapGet "languages" m = some (.array (l.map .string)) →
    md.languages = l
  recordSize : ∀ n, mapGet "record_size" m = some (.u16 n) → md.recordSize = n

/-- The version of the addresses of a layout. -/
def Mmdb.Layout.version (layout : Mmdb.Layout) : IpVersion := if layout.ipVersion = 6 then .v6 else .v4

/-- The item is the network of a leaf, an IPv4 or an IPv6 network with its bits, and is read by calling
the visitor's method for each wire type: these are the calls a `Value` emits. -/
structure Maxminddb.Item.Of (item : Maxminddb.Item) (database : List UInt8) (layout : Mmdb.Layout)
    (e : List Bool × ℕ) : Prop where
  network : ∃ ip prefixLen net, item.network = .ok (ip, prefixLen) ∧
    IpNet.new ip prefixLen = some net ∧ netPath layout.version net = some e.1
  data : ∀ v, Decodes (Mmdb.dataSection database layout.nodeCount layout.recordSize) e.2 v →
    item.data = .ok (some v.serialize)

/-- The reader reads the file as the format says, and yields the networks of the tree in some order. -/
structure Reader.Reads (reader : Reader) (file : List UInt8) : Prop where
  metadata : ∀ database metadata m, Mmdb.Splits file database metadata →
    Decodes metadata 0 (.map m) → reader.metadata.Of m
  networks : ∀ database metadata layout listed, Mmdb.Splits file database metadata →
    HasLayout metadata layout → Mmdb.networks database layout = some listed →
    ∃ listed' items, listed'.Perm listed ∧ reader.networks = .ok (items.map .ok) ∧
      List.Forall₂ (fun item e => item.Of database layout e) items listed'

/-- The crate where one file alone is a valid database. -/
@[reducible] def Maxminddb.single (file : List UInt8) (reader : Reader) : Maxminddb where
  fromSource bytes := if bytes = file then .ok reader else .error "invalid database"
  decodeError _ := "decoding failed"
  prefixLenError := "invalid prefix length"

theorem Maxminddb.fromSource_single (file : List UInt8) (reader : Reader) :
    (Maxminddb.single file reader).fromSource file = .ok reader := if_pos rfl

/-- Metadata read from a section are those written. -/
theorem Reader.Reads.metadata_eq {reader : Reader} {file database : List UInt8} (h : reader.Reads file)
    {m : Metadata} (hfile : Mmdb.Splits file database m.toBytes) (hs : All SizeOk m.toMap)
    (hlang : ArrayLenOk m.languages.length) : reader.metadata = ⟨m.buildEpoch, m.databaseType,
      m.descriptions, m.ipVersion.metadata, m.languages, m.recordSize.asMetadata⟩ := by
  obtain ⟨fields, hin⟩ := m.inline_toBytes
  have hd := hin.decodes ((headerOk_toMap m).mpr hlang) hs
  rw [m.toMap_eq] at hd
  have hasc : Ascending m.descriptions := by
    rw [Metadata.descriptions, foldl_mapInsert_eq_lastWins]
    exact LastWins.ascending_lastWins _
  obtain ⟨epoch, type, desc, version, langs, size⟩ := h.metadata _ _ _ hfile hd
  refine Maxminddb.Metadata.ext (epoch _ ?_) (type _ ?_) (desc _ hasc ?_) (version _ ?_) (langs _ ?_)
    (size _ ?_) <;> simp [mapGet]

theorem Mmdb.Splits.unique {file database metadata database' metadata' : List UInt8}
    (h : Mmdb.Splits file database metadata) (h' : Mmdb.Splits file database' metadata') :
    database = database' ∧ metadata = metadata' := by
  have hlen : database.length = database'.length :=
    le_antisymm (h'.2.2 _ h.2.1) (h.2.2 _ h'.2.1)
  obtain ⟨hfront, hmeta⟩ := List.append_inj (h.1.symm.trans h'.1) (by
    rw [List.length_append, List.length_append, hlen])
  exact ⟨(List.append_inj hfront hlen).1, hmeta⟩

theorem Mmdb.Decodes.unique {data : List UInt8} {offset : ℕ} {v v' : Value}
    (h : Decodes data offset v) (h' : Decodes data offset v') : v = v' := by
  obtain ⟨_, _, hd⟩ := h
  obtain ⟨_, _, hd'⟩ := h'
  exact (Prod.mk.inj (decode_unique hd hd')).1

theorem Metadata.of_decodes {m : Metadata} (hs : All SizeOk m.toMap)
    (hlang : ArrayLenOk m.languages.length) {fields : List (String × Value)}
    (hd : Decodes m.toBytes 0 (.map fields)) : Maxminddb.Metadata.Of ⟨m.buildEpoch, m.databaseType,
      m.descriptions, m.ipVersion.metadata, m.languages, m.recordSize.asMetadata⟩ fields := by
  obtain ⟨layout, hin⟩ := m.inline_toBytes
  have heq := hd.unique (hin.decodes ((headerOk_toMap m).mpr hlang) hs)
  rw [m.toMap_eq, Value.map.injEq] at heq
  subst heq
  have hpair : Function.Injective fun e : String × String => (e.1, Value.string e.2) := by
    rintro ⟨k, s⟩ ⟨k', s'⟩ h
    simpa using h
  have hstring : Function.Injective Value.string := fun s s' h => Value.string.inj h
  constructor
  · intro n h
    simpa [mapGet] using h
  · intro s h
    simpa [mapGet] using h
  · intro d _ h
    simpa [mapGet, hpair.list_map.eq_iff] using h
  · intro n h
    simpa [mapGet] using h
  · intro l h
    simpa [mapGet, hstring.list_map.eq_iff] using h
  · intro n h
    simpa [mapGet] using h

namespace Writer

variable [Ipnet] {w : Writer}

/-- The contents of the database are within the limits of the format and its readers. -/
structure Readable (w : Writer) (now : SystemTime) (metadata : List UInt8) : Prop where
  texts : w.TextsOk
  languages : ArrayLenOk w.languages.length
  values : ∀ ip v, w.get ip = .ok (some v) → v.WF ∧ All SizeOk v ∧ All HeaderOk v
  epoch : (w.buildEpochSecs now).toNat < 2 ^ 63
  window : metadataMarker.length + metadata.length ≤ 128 * 1024

theorem build_description {b : WriterBuilder} (hb : b.build = .ok w) :
    w.description = b.description.foldl (fun m e => mapInsert e.1 e.2 m) [] := by
  unfold WriterBuilder.build at hb
  dsimp only at hb
  split_ifs at hb
  · rcases hpaint : WriterBuilder.paintAll b.ipVersion (Reserved.networks b.ipVersion) Tree.new with
      ⟨_ | _, t⟩ <;> rw [hpaint] at hb <;> cases hb
    rfl
  · cases hb
    rfl

/-- The descriptions of a writer are a map. -/
theorem Reachable.description (hw : w.Reachable) :
    w.description.foldl (fun m e => mapInsert e.1 e.2 m) [] = w.description := by
  obtain ⟨b, w₀, calls, hb, hno, rfl⟩ := hw
  obtain ⟨w₁, l, r, hb₁, -, hinv, -⟩ := build_inv b
  rw [hb, Except.ok.injEq] at hb₁
  subst hb₁
  rw [(Inv.run_keeps calls hinv hno).1, build_description hb]
  refine foldl_mapInsert _ [] (List.pairwise_map.mpr ?_)
  rw [foldl_mapInsert_eq_lastWins]
  exact LastWins.ascending_lastWins _

omit [Ipnet] in
theorem version_layout (now : SystemTime) (t : Tree) (size : RecordSize) :
    (w.metadata now t size).layout.version = w.ipVersion := by
  show (if (w.ipVersion.metadata).toNat = 6 then IpVersion.v6 else .v4) = w.ipVersion
  cases w.ipVersion <;> rfl

section File

variable {now : SystemTime} {file database metadata : List UInt8} {layout : Mmdb.Layout}

theorem Lays.splits (hlays : w.Lays now file database metadata layout)
    (hread : w.Readable now metadata) : Mmdb.Splits file database metadata := by
  obtain ⟨t, data, idToOffset, size, treeBytes, -, -, -, -, rfl, rfl, -, rfl⟩ := hlays
  refine ⟨rfl, lastStart_marker (Metadata.clean_toBytes _ ?_)⟩
  have hwindow := hread.window
  have hmarker : metadataMarker.length = 14 := rfl
  unfold DataSection.window
  omega

theorem Reachable.hasLayout (hw : w.Reachable) (hlays : w.Lays now file database metadata layout)
    (hread : w.Readable now metadata) : HasLayout metadata layout := by
  obtain ⟨t, data, idToOffset, size, treeBytes, ht, hpush, -, hser, -, rfl, rfl, -⟩ := hlays
  exact Metadata.hasLayout (hread.texts.all now t size) hread.languages
    (hw.grown.nodeCount_lt ht hpush hser)

theorem Reachable.exists_network (hw : w.Reachable)
    (hlays : w.Lays now file database metadata layout) {nets : List (List Bool × Value)}
    (hnets : w.networks = .ok nets) {ip : IpAddr} {v : Value} (hget : w.get ip = .ok (some v)) :
    ∃ p, (p, v) ∈ nets := by
  obtain ⟨l, r, -, hinv, -, hnets', -⟩ := hw.listing hlays
  rw [hnets, Except.ok.injEq] at hnets'
  cases hq : addrPath w.ipVersion ip with
  | none =>
    rw [get_of_addrPath_none hq] at hget
    cases hget
  | some q =>
    obtain ⟨p, hleaf, -⟩ := (hinv.get_eq_some_iff_leafAt hq v).mp hget
    exact ⟨p, by rwa [hnets', Leaf.mem_filterMap_entryAt, BitTrie.mem_leaves]⟩

/-- Every network has an address, so that its value is one of `get`. -/
theorem Reachable.readable_networks (hw : w.Reachable)
    (hlays : w.Lays now file database metadata layout) (hread : w.Readable now metadata)
    {nets : List (List Bool × Value)} (hnets : w.networks = .ok nets) :
    ∀ n ∈ nets, n.2.WF ∧ All SizeOk n.2 ∧ All HeaderOk n.2 := by
  rintro ⟨p, v⟩ hn
  obtain ⟨l, r, -, hinv, -, hnets', -⟩ := hw.listing hlays
  rw [hnets, Except.ok.injEq] at hnets'
  rw [hnets', Leaf.mem_filterMap_entryAt, BitTrie.mem_leaves] at hn
  have hp := (BitTrie.length_le_of_leafAt hn).trans (w.height_builtTrie_le hinv.height)
  obtain ⟨ip, hip⟩ := exists_addrPath w.ipVersion
    (q := p ++ List.replicate (w.ipVersion.treeDepth - p.length) false) (by simp; omega)
  exact hread.values ip v ((hinv.get_eq_some_iff_leafAt hip v).mpr
    ⟨p, hn, List.prefix_append _ _⟩)

/-- A reader that returns the options and the networks of the writer reads its file. -/
theorem Reachable.reads (hw : w.Reachable) (hlays : w.Lays now file database metadata layout)
    (hread : w.Readable now metadata) {nets : List (List Bool × Value)} (hnets : w.networks = .ok nets)
    {reader : Reader} {size : RecordSize} (hsize : size.bits = layout.recordSize)
    (hmeta : reader.metadata = ⟨w.buildEpochSecs now, w.databaseType, w.description,
      w.ipVersion.metadata, w.languages, size.asMetadata⟩)
    {items : List Maxminddb.Item} (hitems : reader.networks = .ok (items.map .ok))
    (hof : List.Forall₂ (fun item n => (∃ ip prefixLen net, item.network = .ok (ip, prefixLen) ∧
      IpNet.new ip prefixLen = some net ∧ netPath w.ipVersion net = some n.1) ∧
      item.data = .ok (some n.2.serialize)) items nets) : reader.Reads file := by
  have hsplit := hlays.splits hread
  have hlayout := hw.hasLayout hlays hread
  have hvalues := hw.readable_networks hlays hread hnets
  obtain ⟨l, r, listed, hinv, hlist, hnets', hrel⟩ := hw.listing hlays
  rw [← Except.ok.inj (hnets.symm.trans hnets')] at hrel
  obtain ⟨t, data, idToOffset, size', treeBytes, ht, hpush, -, hser, rfl, rfl, rfl, rfl⟩ := hlays
  constructor
  · intro database metadata fields hfile hd
    obtain ⟨rfl, rfl⟩ := hsplit.unique hfile
    obtain rfl : size = size' := RecordSize.bits_injective hsize
    have hof := Metadata.of_decodes (hread.texts.all now t size) hread.languages hd
    rw [hmeta]
    have hdesc : (w.metadata now t size).descriptions = w.description := hw.description
    rwa [hdesc] at hof
  · intro database metadata layout listed' hfile hl hlist'
    obtain ⟨rfl, rfl⟩ := hsplit.unique hfile
    obtain rfl := hasLayout_unique hlayout hl
    rw [hlist, Option.some.injEq] at hlist'
    subst hlist'
    refine ⟨listed, items, .refl _, hitems, ?_⟩
    clear hlist hnets' hnets hitems
    induction hof generalizing listed with
    | nil =>
      cases hrel
      exact .nil
    | @cons item n items nets hitem _ ih =>
      obtain _ | ⟨⟨hpath, hdec⟩, hrest⟩ := hrel
      obtain ⟨-, hsizes, hheaders⟩ := hvalues n List.mem_cons_self
      refine .cons ⟨?_, fun v hv => ?_⟩ (ih (fun n' hn' => hvalues n' (List.mem_cons_of_mem _ hn')) _
        hrest)
      · rw [version_layout, hpath]
        exact hitem.1
      · rw [hv.unique (hdec hsizes hheaders)]
        exact hitem.2

/-- A short file of short texts is within the limits. -/
theorem Reachable.readable_short (hw : w.Reachable) (htype : w.databaseType = "City")
    (hdesc : w.description = []) (hlang : w.languages = ["en"]) (hepoch : w.buildEpochSecs 0 = 0)
    (hlays : w.Lays 0 file database metadata layout) (hshort : file.length ≤ 128 * 1024)
    {nets : List (List Bool × Value)} (hnets : w.networks = .ok nets)
    (hvalues : ∀ n ∈ nets, n.2 = .string "a" ∨ n.2 = .string "b") : w.Readable 0 metadata := by
  refine ⟨⟨?_, ?_, ?_⟩, ?_, fun ip v hget => ?_, ?_, ?_⟩
  · rw [htype]
    decide +kernel
  · rw [hdesc]
    decide +kernel
  · rw [hlang]
    decide +kernel
  · rw [hlang]
    decide +kernel
  · obtain ⟨q, hq⟩ := hw.exists_network hlays hnets hget
    rcases hvalues _ hq with rfl | rfl <;> exact ⟨trivial, by decide +kernel, by decide +kernel⟩
  · rw [hepoch]
    decide
  · obtain ⟨t, data, idToOffset, size, treeBytes, -, -, -, -, -, -, -, rfl⟩ := hlays
    rw [List.length_append, List.length_append] at hshort
    omega

end File

omit [Ipnet] in
theorem small_city :
    let _ := Ipnet.std
    ∃ (w : Writer) (file : List UInt8), w.Reachable ∧ w.toWriterBuilder =
        { databaseType := "City", ipVersion := .v6, buildEpoch := some 0 } ∧
      w.tree.nodes.length ≤ 256 ∧ w.toBytes 0 = .ok file ∧ file.length ≤ 128 * 1024 ∧
      w.networks = .ok
        [(v4Path ++ [false, false, false, false, false, false, false, true], .string "a"),
          ([true], .string "b")] := by
  intro _
  let net : IpNet := .v4 ⟨0x01000000, 8, by decide⟩
  let net' : IpNet := .v6 ⟨0x80000000000000000000000000000000, 1, by decide⟩
  let w₀ : Writer :=
    { databaseType := "City", ipVersion := .v6, buildEpoch := some 0, tree := Tree.new
      pool := ValuePool.new }
  let calls : List Call := [.insert (.value net (.string "a")), .insert (.value net' (.string "b"))]
  have hb : w₀.toWriterBuilder.build = .ok w₀ := rfl
  -- one evaluation, as the steps share the tree
  obtain ⟨hno, hnodes, hbytes, hnets⟩ : .error .panic ∉ (run calls w₀).1 ∧
      (run calls w₀).2.tree.nodes.length ≤ 256 ∧
      ((run calls w₀).2.toBytes 0).map (fun file => decide (file.length ≤ 128 * 1024)) = .ok true ∧
      (run calls w₀).2.networks = .ok
        [(v4Path ++ [false, false, false, false, false, false, false, true], .string "a"),
          ([true], .string "b")] := by
    decide +kernel
  obtain ⟨l, r, hinv⟩ := Reachable.inv (w := w₀) ⟨_, w₀, [], hb, List.not_mem_nil, rfl⟩
  cases hfile : (run calls w₀).2.toBytes 0 with
  | error e =>
    rw [hfile] at hbytes
    cases hbytes
  | ok file =>
    rw [hfile] at hbytes
    exact ⟨(run calls w₀).2, file, ⟨w₀.toWriterBuilder, w₀, calls, hb, hno, rfl⟩,
      (Inv.run_keeps calls hinv hno).1, hnodes, hfile, of_decide_eq_true (Except.ok.inj hbytes), hnets⟩

omit [Ipnet] in
theorem reads_city :
    let _ := Ipnet.std
    ∃ (w : Writer) (file database metadata : List UInt8) (layout : Mmdb.Layout) (reader : Reader)
      (nets : List (List Bool × Value)), w.Reachable ∧ w.toWriterBuilder =
        { databaseType := "City", ipVersion := .v6, buildEpoch := some 0 } ∧
      w.tree.nodes.length ≤ 256 ∧ w.toBytes 0 = .ok file ∧
      w.Lays 0 file database metadata layout ∧ w.Readable 0 metadata ∧ w.networks = .ok nets ∧
      nets.length = 2 ∧ (∀ n ∈ nets, ∀ a ∈ aliasPaths, ¬ a <+: n.1) ∧
      reader.metadata.buildEpoch = 0 ∧ (∀ items, reader.networks = .ok items → items.length = 2) ∧
      reader.Reads file := by
  intro _
  obtain ⟨w, file, hr, hopt, hnodes, hfile, hshort, hnets⟩ := small_city
  obtain ⟨t, data, idToOffset, size, treeBytes, ht, hpush, hpick, hser, heq⟩ := toBytes_eq_ok.mp hfile
  have hlays : w.Lays 0 file _ _ _ :=
    ⟨t, data, idToOffset, size, treeBytes, ht, hpush, hpick, hser, rfl, rfl, rfl, heq⟩
  have hepoch : w.buildEpochSecs 0 = 0 := by
    unfold buildEpochSecs
    rw [hopt]
    rfl
  have hread : w.Readable 0 (w.metadata 0 t size).toBytes :=
    hr.readable_short (by rw [hopt]) (by rw [hopt]) (by rw [hopt]) hepoch hlays hshort hnets (by
      decide +kernel)
  let item : Maxminddb.Item := ⟨.ok (some (Value.serialize (.string "a"))), .ok (.v4 0x01000000, 8)⟩
  let item' : Maxminddb.Item := ⟨.ok (some (Value.serialize (.string "b"))),
    .ok (.v6 0x80000000000000000000000000000000, 1)⟩
  let reader : Reader :=
    { metadata := ⟨0, "City", [], 6, ["en"], size.asMetadata⟩
      networks := .ok [.ok item, .ok item'] }
  refine ⟨w, file, _, _, _, reader, _, hr, hopt, hnodes, hfile, hlays, hread, hnets, rfl,
    by decide +kernel, rfl, fun items h => by cases h; rfl, ?_⟩
  have hitems : reader.networks = .ok ([item, item'].map .ok) := rfl
  have hsize : size.bits = size.bits := rfl
  refine hr.reads hlays hread hnets hsize ?_ hitems (.cons ⟨?_, rfl⟩ (.cons ⟨?_, rfl⟩ .nil))
  · rw [hepoch, hopt]
    rfl
  · exact ⟨_, _, .v4 ⟨0x01000000, 8, by decide⟩, rfl, by decide +kernel, by
      rw [hopt]
      decide +kernel⟩
  · exact ⟨_, _, .v6 ⟨0x80000000000000000000000000000000, 1, by decide⟩, rfl, by decide +kernel, by
      rw [hopt]
      decide +kernel⟩

end Writer

end MmdbWriter
