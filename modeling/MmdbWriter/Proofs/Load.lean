import MmdbWriter.Proofs.Capacity
import MmdbWriter.Proofs.Reads
import MmdbWriter.Proofs.Transparent

/-!
# Loading a file that was written

A load inserts the networks that the reader lists one after the other, under the default options. They
lie apart, so that the order does not matter and the new writer has the data of the old one, unless one
of them lies in an alias network, which the default options refuse.
-/

namespace MmdbWriter

open BitTrie (leaf node)
open Mmdb (Decodes HasLayout)
open Value (SizeOk HeaderOk All)

namespace Writer

variable [Ipnet] [Maxminddb] {w : Writer} {l r : BitTrie (Leaf Value)}

omit [Maxminddb] in
/-- The inserts of a load. -/
def loadEntries : List (IpNet × Value) → Writer → Except Fault Writer
  | [], w => .ok w
  | e :: entries, w =>
    match insertValue e.1 e.2 w with
    | (.ok (), w) => loadEntries entries w
    | (.error e, _) => .error e

/-- The item is decoded to the entry. -/
structure Entry (item : Maxminddb.Item) (e : IpNet × Value) : Prop where
  decode : item.decode = .ok (some e.2)
  network : ∃ ip prefixLen, item.network = .ok (ip, prefixLen) ∧ IpNet.new ip prefixLen = some e.1

theorem loadItems_eq {items : List Maxminddb.Item} {entries : List (IpNet × Value)}
    (h : List.Forall₂ Entry items entries) :
    ∀ w, loadItems (items.map .ok) w = loadEntries entries w := by
  induction h with
  | nil => exact fun _ => rfl
  | @cons item e items entries he _ ih =>
    intro w
    obtain ⟨ip, prefixLen, hnet, hnew⟩ := he.network
    rw [List.map_cons, loadItems]
    simp only [loadErr, bind, Except.bind, he.decode, hnet, hnew, loadEntries]
    rcases insertValue e.1 e.2 w with ⟨_ | _, w'⟩
    · rfl
    · exact ih w'

omit [Ipnet] [Maxminddb] in
theorem map_insert_value (entries : List (IpNet × Value)) :
    (entries.map fun e => Insert.value e.1 e.2).map .insert = valueCalls entries := List.map_map

omit [Maxminddb] in
/-- A run without a failure leaves what the load does, and at a failure the load stops. -/
theorem loadEntries_cases : ∀ (entries : List (IpNet × Value)) (w : Writer),
    (∀ res ∈ (run (valueCalls entries) w).1, res = .ok ()) ∧
      loadEntries entries w = .ok (run (valueCalls entries) w).2 ∨
    ∃ e, .error e ∈ (run (valueCalls entries) w).1 ∧ loadEntries entries w = .error e
  | [], w => Or.inl ⟨fun _ h => absurd h List.not_mem_nil, rfl⟩
  | e :: entries, w => by
    have hrun : run (valueCalls (e :: entries)) w = ((insertValue e.1 e.2 w).1 ::
        (run (valueCalls entries) (insertValue e.1 e.2 w).2).1,
        (run (valueCalls entries) (insertValue e.1 e.2 w).2).2) := rfl
    rw [hrun, loadEntries]
    rcases insertValue e.1 e.2 w with ⟨err | _, w'⟩
    · exact Or.inr ⟨err, List.mem_cons_self, rfl⟩
    · rcases loadEntries_cases entries w' with ⟨hok, hload⟩ | ⟨err, hmem, hload⟩
      · exact Or.inl ⟨List.forall_mem_cons.mpr ⟨rfl, hok⟩, hload⟩
      · exact Or.inr ⟨err, List.mem_cons_of_mem _ hmem, hload⟩

/-- The bits lead into an alias network. -/
def InAlias (ipVersion : IpVersion) (p : List Bool) : Prop :=
  ipVersion = .v6 ∧ ∃ a ∈ aliasPaths, a <+: p

instance (ipVersion : IpVersion) (p : List Bool) : Decidable (InAlias ipVersion p) :=
  inferInstanceAs (Decidable (_ ∧ _))

omit [Maxminddb] in
/-- Under the default options a network is refused where it lies in an alias network. -/
theorem checks_default (hal : w.ipv4Aliasing = .enabled) (hres : w.reservedNetworks = .included)
    {net : IpNet} {p : List Bool} (hp : netPath w.ipVersion net = some p) :
    w.checks net =
      if InAlias w.ipVersion p then .error (.err (.aliasedNetwork net)) else .ok () := by
  have hpre : ∃ x, toTreePrefix net w.ipVersion = .ok x := by
    rcases toTreePrefix_cases net w.ipVersion with ⟨_, _, hpre, -⟩ | ⟨_, -, -, hno, -⟩
    · exact ⟨_, hpre⟩
    · rw [hp] at hno
      cases hno
  have hcond : (w.ipVersion = .v6 ∧ w.ipv4Aliasing = .enabled ∧
      aliasNetworks.any (fun a => Ipnet.contains a net)) ↔ InAlias w.ipVersion p := by
    refine and_congr_right fun h6 => ?_
    rw [h6] at hp
    rw [any_contains_iff hp, and_iff_right hal]
  obtain ⟨x, hx⟩ := hpre
  unfold checks ensureInsertable
  by_cases h : InAlias w.ipVersion p
  · rw [if_pos (hcond.mpr h), if_pos h]
    rfl
  · rw [if_neg (mt hcond.mp h), if_neg h, if_neg (by rw [hres]; rintro ⟨h', -⟩; cases h'), hx]
    rfl

omit [Ipnet] [Maxminddb] in
/-- Where the inserts that cover an address have one value, the last of them leaves it. -/
theorem foldOps_values (ipVersion : IpVersion) (ip : IpAddr) (v : Value) :
    ∀ (entries : List (IpNet × Value)) (old : Option Value),
      (∀ e ∈ entries, e.1.Covers ipVersion ip → e.2 = v) →
      foldOps ipVersion (entries.map fun e => .value e.1 e.2) ip old =
        if ∃ e ∈ entries, e.1.Covers ipVersion ip then some v else old
  | [], old, _ => by simp [foldOps]
  | e :: entries, old, h => by
    rw [List.map_cons, foldOps_cons, foldOps_values ipVersion ip v entries _ fun e' he' =>
      h e' (List.mem_cons_of_mem _ he')]
    have hcons : (∃ e' ∈ e :: entries, e'.1.Covers ipVersion ip) ↔
        e.1.Covers ipVersion ip ∨ ∃ e' ∈ entries, e'.1.Covers ipVersion ip := by
      simp only [List.mem_cons, exists_eq_or_imp]
    by_cases hrest : ∃ e' ∈ entries, e'.1.Covers ipVersion ip
    · rw [if_pos hrest, if_pos (hcons.mpr (Or.inr hrest))]
    · rw [if_neg hrest]
      by_cases hc : e.1.Covers ipVersion ip
      · rw [if_pos (hcons.mpr (Or.inl hc)), ← h e List.mem_cons_self hc]
        exact if_pos hc
      · rw [if_neg (mt hcons.mp (not_or.mpr ⟨hc, hrest⟩))]
        exact if_neg hc

omit [Maxminddb] in
/-- What inserts of networks do to a new writer with the default options. -/
theorem loadEntries_default {b : WriterBuilder} {w₀ : Writer} (hb : b.build = .ok w₀)
    (hal : b.ipv4Aliasing = .enabled) (hres : b.reservedNetworks = .included)
    {entries : List (IpNet × Value)} (hpath : ∀ e ∈ entries, (netPath b.ipVersion e.1).isSome)
    (hroom : entries.length * b.ipVersion.treeDepth + 2 ^ 12 < 2 ^ 32) :
    (∃ w', loadEntries entries w₀ = .ok w' ∧ w'.Reachable ∧ w'.toWriterBuilder = w₀.toWriterBuilder ∧
      w'.tree.nodes.length ≤ 2 ^ 12 + entries.length * b.ipVersion.treeDepth ∧
      (∀ e ∈ entries, ∀ p, netPath b.ipVersion e.1 = some p → ¬ InAlias b.ipVersion p) ∧
      ∀ ip q, addrPath b.ipVersion ip = some q → w'.get ip =
        .ok (foldOps b.ipVersion (entries.map fun e => .value e.1 e.2) ip none)) ∨
    ∃ e ∈ entries, ∃ p, netPath b.ipVersion e.1 = some p ∧ InAlias b.ipVersion p ∧
      loadEntries entries w₀ = .error (.err (.aliasedNetwork e.1)) := by
  obtain ⟨w', l, r, hb', hopt, hinv, hnone, -⟩ := build_inv b
  rw [hb, Except.ok.injEq] at hb'
  subst hb'
  obtain ⟨hnodes, hpool, hver⟩ := build_length hb
  have hle : entries.length ≤ entries.length * b.ipVersion.treeDepth :=
    Nat.le_mul_of_pos_right _ (treeDepth_pos _)
  obtain ⟨hresults, hlim, hlen⟩ := Inv.run_room entries hinv (by rw [hver]; omega) (by omega)
  rw [hver] at hlen
  have hcheck : ∀ e ∈ entries, ∃ p, netPath b.ipVersion e.1 = some p ∧ w₀.checks e.1 =
      if InAlias b.ipVersion p then .error (.err (.aliasedNetwork e.1)) else .ok () := by
    intro e he
    obtain ⟨p, hp⟩ := Option.isSome_iff_exists.mp (hpath e he)
    refine ⟨p, hp, ?_⟩
    rw [← hver] at hp ⊢
    exact checks_default (by rw [hopt]; exact hal) (by rw [hopt]; exact hres) hp
  rcases loadEntries_cases entries w₀ with ⟨hok, hload⟩ | ⟨err, herr, hload⟩
  · obtain ⟨l', r', hinv', hopt', hval⟩ := Inv.run_value
      (entries.map fun e => Insert.value e.1 e.2) hinv (neverFull_of_limits (by
        rw [map_insert_value]
        exact hlim))
    rw [map_insert_value] at hinv' hopt'
    rw [accepted_of_ok (by rw [map_insert_value]; exact hok)] at hval
    have hver' : (run (valueCalls entries) w₀).2.ipVersion = b.ipVersion := by
      rw [← hver]
      exact congrArg (·.ipVersion) hopt'
    refine Or.inl ⟨_, hload, ⟨b, w₀, valueCalls entries, hb, fun hp => ?_, rfl⟩, hopt',
      hlen.trans (Nat.add_le_add_right hnodes _), fun e he p hp hin => ?_, fun ip q hq => ?_⟩
    · cases hok _ hp
    · obtain ⟨p', hp', hc⟩ := hcheck e he
      rw [hp, Option.some.injEq] at hp'
      subst hp'
      rw [if_pos hin] at hc
      have := hok _ (hresults ▸ List.mem_map_of_mem he)
      rw [hc] at this
      cases this
    · have hno : (node false l r).eval q ≠ .reserved := by
        rw [Ne, hinv.reserved_iff q (by rw [hver]; exact length_addrPath hq)]
        have hres' : w₀.reservedNetworks = .included := by rw [hopt]; exact hres
        simp [WriterBuilder.reservedPaths, hres']
      rw [hinv'.get (by rw [hver']; exact hq), hval ip q (by rw [hver]; exact hq) hno, hnone, hver]
  · rw [hresults] at herr
    obtain ⟨e, he, hc'⟩ := List.mem_map.mp herr
    obtain ⟨p, hp, hc⟩ := hcheck e he
    rw [hc] at hc'
    split_ifs at hc' with hin
    · cases hc'
      exact Or.inr ⟨e, he, p, hp, hin, hload⟩

section File

omit [Ipnet] in
/-- The items of a reader decode to the networks that are listed. -/
theorem exists_entries {database : List UInt8} {layout : Mmdb.Layout} {items : List Maxminddb.Item}
    {listed : List (List Bool × ℕ)}
    (h : List.Forall₂ (fun item e => item.Of database layout e) items listed) :
    ∀ {nets : List (List Bool × Value)}, List.Forall₂ (fun e n => e.1 = n.1 ∧ (All SizeOk n.2 →
        All HeaderOk n.2 → Decodes (Mmdb.dataSection database layout.nodeCount layout.recordSize)
          e.2 n.2)) listed nets →
      (∀ n ∈ nets, n.2.WF ∧ All SizeOk n.2 ∧ All HeaderOk n.2) →
      ∃ entries, List.Forall₂ Entry items entries ∧ List.Forall₂ (fun e n =>
        netPath layout.version e.1 = some n.1 ∧ e.2 = n.2) entries nets := by
  induction h with
  | nil =>
    intro nets hnets _
    cases hnets
    exact ⟨[], .nil, .nil⟩
  | @cons item e items listed hitem _ ih =>
    intro nets hnets hok
    obtain _ | ⟨⟨hpath, hdec⟩, hrest⟩ := hnets
    rename_i n nets
    obtain ⟨hwf, hsize, hheader⟩ := hok n List.mem_cons_self
    obtain ⟨entries, hentries, hnets⟩ := ih hrest fun n' hn' => hok n' (List.mem_cons_of_mem _ hn')
    obtain ⟨ip, prefixLen, net, hnet, hnew, hp⟩ := hitem.network
    refine ⟨(net, n.2) :: entries, .cons ⟨?_, ip, prefixLen, hnet, hnew⟩ hentries,
      .cons ⟨hpath ▸ hp, rfl⟩ hnets⟩
    unfold Maxminddb.Item.decode
    rw [hitem.data n.2 (hdec hsize hheader)]
    simp only [ValueVisitor.replay_serialize hwf]

/-- The options of a writer that is loaded from a file of `w` with records of this size. -/
def loadedOptions (w : Writer) (now : SystemTime) (size : RecordSize) : WriterBuilder where
  databaseType := w.databaseType
  languages := w.languages
  description := w.description
  ipVersion := w.ipVersion
  recordSize := some size
  buildEpoch := some ((w.buildEpochSecs now).toNat * 10 ^ 9)

omit [Ipnet] [Maxminddb] in
theorem recordSizeFrom_asMetadata (size : RecordSize) : recordSizeFrom size.asMetadata = .ok size := by
  cases size <;> rfl

/-- A load builds a writer with the options the metadata tell and inserts the entries. -/
theorem Reachable.load_eq (hw : w.Reachable) {now : SystemTime} {file : List UInt8} {reader : Reader}
    (hfrom : Maxminddb.fromSource file = .ok reader) {t : Tree} {size : RecordSize}
    (hmeta : reader.metadata = ⟨w.buildEpochSecs now, w.databaseType,
      (w.metadata now t size).descriptions, w.ipVersion.metadata, w.languages, size.asMetadata⟩)
    (hepoch : (w.buildEpochSecs now).toNat < 2 ^ 63) {items : List Maxminddb.Item}
    (hitems : reader.networks = .ok (items.map .ok)) {entries : List (IpNet × Value)}
    (hentries : List.Forall₂ Entry items entries) {w₀ : Writer}
    (hbuild : (loadedOptions w now size).build = .ok w₀) :
    load file = loadEntries entries w₀ := by
  have hversion : (if w.ipVersion.metadata = 4 then IpVersion.v4 else .v6) = w.ipVersion := by
    cases w.ipVersion <;> rfl
  have hdesc : (w.metadata now t size).descriptions = w.description := hw.description
  have hsecs : epochFrom (w.buildEpochSecs now) =
      .ok ((w.buildEpochSecs now).toNat * 10 ^ 9) := if_pos hepoch
  unfold load
  simp only [hfrom, loadErr, bind, Except.bind, hmeta, hsecs, recordSizeFrom_asMetadata, hversion,
    hdesc, hitems]
  unfold loadedOptions at hbuild
  rw [hbuild]
  exact loadItems_eq hentries w₀

omit [Maxminddb] in
/-- Inserts of the leaves of the built trie, in any order, give every address its value. -/
theorem Inv.foldOps_leaves (h : w.Inv l r) {entries : List (IpNet × Value)}
    {nets : List (List Bool × Value)} (hentries : List.Forall₂ (fun e n =>
      netPath w.ipVersion e.1 = some n.1 ∧ e.2 = n.2) entries nets)
    (hnets : ∀ p v, (p, v) ∈ nets ↔ (w.builtTrie (node false l r)).leafAt p = some (.data v))
    {ip : IpAddr} {q : List Bool} (hq : addrPath w.ipVersion ip = some q) :
    .ok (foldOps w.ipVersion (entries.map fun e => .value e.1 e.2) ip none) = w.get ip := by
  have hleft : ∀ e ∈ entries, ∃ p, netPath w.ipVersion e.1 = some p ∧
      (w.builtTrie (node false l r)).leafAt p = some (.data e.2) := by
    intro e he
    obtain ⟨⟨p, v⟩, hn, hp, rfl⟩ := forall₂_exists_left hentries e he
    exact ⟨p, hp, (hnets p _).mp hn⟩
  have hcovers : ∀ e ∈ entries, e.1.Covers w.ipVersion ip → w.get ip = .ok (some e.2) := by
    intro e he hc
    obtain ⟨p, hp, hleaf⟩ := hleft e he
    exact (h.get_eq_some_iff_leafAt hq e.2).mpr ⟨p, hleaf, (covers_iff_path hp hq).mp hc⟩
  rcases hval : ((node false l r).eval q).value with _ | v
  · have hget : w.get ip = .ok none := by rw [h.get hq, hval]
    have hno : ¬ ∃ e ∈ entries, e.1.Covers w.ipVersion ip := by
      rintro ⟨e, he, hc⟩
      have := hcovers e he hc
      rw [hget] at this
      cases this
    rw [foldOps_values _ ip (.bool true) entries none (fun e he hc => absurd ⟨e, he, hc⟩ hno),
      if_neg hno, hget]
  · have hget : w.get ip = .ok (some v) := by rw [h.get hq, hval]
    obtain ⟨p, hleaf, hpre⟩ := (h.get_eq_some_iff_leafAt hq v).mp hget
    obtain ⟨e, he, hp, -⟩ := forall₂_exists_right hentries _ ((hnets p v).mpr hleaf)
    rw [foldOps_values _ ip v entries none (fun e he hc => ?_),
      if_pos ⟨e, he, (covers_iff_path hp hq).mpr hpre⟩, hget]
    have := hcovers e he hc
    rw [hget, Except.ok.injEq, Option.some.injEq] at this
    exact this.symm

omit [Maxminddb] in
theorem Reachable.build_loadedOptions (hw : w.Reachable) (now : SystemTime) (size : RecordSize) :
    ∃ w₀, (loadedOptions w now size).build = .ok w₀ ∧
      w₀.toWriterBuilder = loadedOptions w now size := by
  obtain ⟨w₀, l, r, hb, hopt, -⟩ := build_inv (loadedOptions w now size)
  have hdesc : w₀.description = w.description := (build_description hb).trans hw.description
  refine ⟨w₀, hb, hopt.trans ?_⟩
  rw [hdesc]
  rfl

/-- A load of a file inserts its networks into a new writer, in some order. -/
theorem Reachable.exists_loadEntries (hw : w.Reachable) {now : SystemTime}
    {file database metadata : List UInt8} {layout : Mmdb.Layout}
    (hlays : w.Lays now file database metadata layout) (hread : w.Readable now metadata)
    {reader : Reader} (hfrom : Maxminddb.fromSource file = .ok reader) (hreads : reader.Reads file)
    {nets : List (List Bool × Value)} (hnets : w.networks = .ok nets) :
    ∃ (nets' : List (List Bool × Value)) (entries : List (IpNet × Value)) (w₀ : Writer)
      (size : RecordSize), nets'.Perm nets ∧ List.Forall₂ (fun e n =>
        netPath w.ipVersion e.1 = some n.1 ∧ e.2 = n.2) entries nets' ∧
      size.bits = layout.recordSize ∧ (loadedOptions w now size).build = .ok w₀ ∧
      w₀.toWriterBuilder = loadedOptions w now size ∧ load file = loadEntries entries w₀ := by
  obtain ⟨l, r, listed, -, hlist, hnets', hrel⟩ := hw.listing hlays
  have hsplit := hlays.splits hread
  have hlayout := hw.hasLayout hlays hread
  have hvalues := hw.readable_networks hlays hread hnets
  obtain ⟨t, data, idToOffset, size, treeBytes, -, -, -, -, rfl, rfl, rfl, rfl⟩ := hlays
  obtain rfl := Except.ok.inj (hnets.symm.trans hnets')
  have hsizes := hread.texts.all now t size
  obtain ⟨listed', items, hperm, hitems, hof⟩ := hreads.networks _ _ _ _ hsplit hlayout hlist
  obtain ⟨nets', hrel', hperm'⟩ := List.perm_comp_forall₂ hperm hrel
  obtain ⟨entries, hentries, hpaths⟩ := exists_entries hof hrel' fun n hn =>
    hvalues n (hperm'.mem_iff.mp hn)
  rw [version_layout] at hpaths
  obtain ⟨w₀, hb, hopt₀⟩ := hw.build_loadedOptions now size
  exact ⟨nets', entries, w₀, size, hperm', hpaths, rfl, hb, hopt₀, hw.load_eq hfrom
    (hreads.metadata_eq hsplit hsizes hread.languages) hread.epoch hitems hentries hb⟩

theorem Reachable.load_cases (hw : w.Reachable) {now : SystemTime} {file database metadata : List UInt8}
    {layout : Mmdb.Layout} (hlays : w.Lays now file database metadata layout)
    (hread : w.Readable now metadata) {reader : Reader}
    (hfrom : Maxminddb.fromSource file = .ok reader) (hreads : reader.Reads file)
    {nets : List (List Bool × Value)} (hnets : w.networks = .ok nets)
    (hroom : nets.length * w.ipVersion.treeDepth + 2 ^ 12 < 2 ^ 32) :
    (∃ w' size, load file = .ok w' ∧ w'.Reachable ∧ size.bits = layout.recordSize ∧
      w'.toWriterBuilder = loadedOptions w now size ∧
      w'.tree.nodes.length ≤ 2 ^ 12 + nets.length * w.ipVersion.treeDepth ∧
      (∀ n ∈ nets, ¬ InAlias w.ipVersion n.1) ∧ ∀ ip, w'.get ip = w.get ip) ∨
    ∃ net n, n ∈ nets ∧ netPath w.ipVersion net = some n.1 ∧ InAlias w.ipVersion n.1 ∧
      load file = .error (.err (.aliasedNetwork net)) := by
  obtain ⟨nets', entries, w₀, size, hperm, hpaths, hsize, hb, hopt₀, heq⟩ :=
    hw.exists_loadEntries hlays hread hfrom hreads hnets
  obtain ⟨l, r, -, hinv, -, hnets', -⟩ := hw.listing hlays
  have hmem : ∀ p v, (p, v) ∈ nets' ↔
      (w.builtTrie (node false l r)).leafAt p = some (.data v) := by
    intro p v
    rw [hperm.mem_iff, Except.ok.inj (hnets.symm.trans hnets'), Leaf.mem_filterMap_entryAt,
      BitTrie.mem_leaves]
  rw [heq]
  have hlength : entries.length = nets.length := hpaths.length_eq.trans hperm.length_eq
  have hpath : ∀ e ∈ entries, (netPath w.ipVersion e.1).isSome := fun e he => by
    obtain ⟨n, -, hp, -⟩ := forall₂_exists_left hpaths e he
    rw [hp]
    rfl
  rcases loadEntries_default hb rfl rfl hpath (by rw [hlength]; exact hroom) with
    ⟨w', hload, hw', hopt', hlen, hno, hget⟩ | ⟨e, he, p, hp, hin, hload⟩
  · rw [hlength] at hlen
    refine Or.inl ⟨w', size, hload, hw', hsize, hopt'.trans hopt₀, hlen, fun n hn hin => ?_,
      fun ip => ?_⟩
    · obtain ⟨e, he, hp, -⟩ := forall₂_exists_right hpaths n (hperm.mem_iff.mpr hn)
      exact hno e he n.1 hp hin
    · have hver' : w'.ipVersion = w.ipVersion := by rw [hopt', hopt₀]; rfl
      cases hq : addrPath w.ipVersion ip with
      | none => rw [get_of_addrPath_none hq, get_of_addrPath_none (by rw [hver', hq])]
      | some q => exact (hget ip q hq).trans (hinv.foldOps_leaves hpaths hmem hq)
  · obtain ⟨n, hn, hp', -⟩ := forall₂_exists_left hpaths e he
    obtain rfl : p = n.1 := Option.some.inj (hp.symm.trans hp')
    exact Or.inr ⟨e.1, n, hperm.mem_iff.mp hn, hp, hin, hload⟩

/-- A file of a writer is loaded into a writer with the same options and data, or it is not loaded,
for one of its networks lies in an alias network and the default options refuse it. -/
theorem load_file (hw : w.Reachable) {now : SystemTime} {file database metadata : List UInt8}
    {layout : Mmdb.Layout} (hlays : w.Lays now file database metadata layout)
    (hread : w.Readable now metadata) {reader : Reader}
    (hfrom : Maxminddb.fromSource file = .ok reader) (hreads : reader.Reads file)
    {nets : List (List Bool × Value)} (hnets : w.networks = .ok nets)
    (hroom : nets.length * w.ipVersion.treeDepth + 2 ^ 12 < 2 ^ 32) :
    (∃ w' size, load file = .ok w' ∧ w'.Reachable ∧ size.bits = layout.recordSize ∧
      w'.toWriterBuilder = loadedOptions w now size ∧ (∀ n ∈ nets, ¬ InAlias w.ipVersion n.1) ∧
      ∀ ip, w'.get ip = w.get ip) ∨
    ∃ net n, n ∈ nets ∧ netPath w.ipVersion net = some n.1 ∧ InAlias w.ipVersion n.1 ∧
      load file = .error (.err (.aliasedNetwork net)) := by
  rcases hw.load_cases hlays hread hfrom hreads hnets hroom with
    ⟨w', size, hload, hw', hsize, hopt, -, hno, hget⟩ | hin
  · exact Or.inl ⟨w', size, hload, hw', hsize, hopt, hno, hget⟩
  · exact Or.inr hin

omit [Ipnet] [Maxminddb] in
/-- A database with aliases, of an IPv4 network and of an IPv6 network, is loaded. -/
theorem load_file_city :
    let _ := Ipnet.std
    ∃ (_ : Maxminddb) (w w' : Writer) (file : List UInt8) (nets : List (List Bool × Value)),
      w.ipVersion = .v6 ∧ w.ipv4Aliasing = .enabled ∧ w.networks = .ok nets ∧ nets.length = 2 ∧
      w.toBytes 0 = .ok file ∧ load file = .ok w' ∧ ∀ ip, w'.get ip = w.get ip := by
  intro _
  obtain ⟨w, file, database, metadata, layout, reader, nets, hr, hopt, hnodes, hfile, hlays, hread,
    hnets, htwo, hno, -, -, hreads⟩ := reads_city
  let M := Maxminddb.single file reader
  have hver : w.ipVersion = .v6 := by rw [hopt]
  rcases load_file hr hlays hread (Maxminddb.fromSource_single file reader) hreads hnets (by rw [htwo, hver]; decide) with
    ⟨w', size, hload, -, -, -, -, hget⟩ | ⟨net, n, hn, -, ⟨-, a, ha, hpre⟩, -⟩
  · exact ⟨M, w, w', file, nets, hver, by rw [hopt], hnets, htwo, hfile, hload, hget⟩
  · exact absurd hpre (hno n hn a ha)

end File

end Writer

end MmdbWriter
