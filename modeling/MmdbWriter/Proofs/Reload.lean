import MmdbWriter.Proofs.Load
import MmdbWriter.Proofs.SameFile

/-!
# Writing a loaded file again

A file does not tell all the options, and a load takes the default ones for the rest. Where the writer
of the file had those too, the loaded writer writes the same file, byte for byte.
-/

namespace MmdbWriter

open BitTrie (leaf node)

namespace Writer

/-- The options that no file tells are the default ones. -/
structure Untold (w : Writer) : Prop where
  ipv4Aliasing : w.ipVersion = .v6 → w.ipv4Aliasing = .enabled
  reservedNetworks : w.reservedNetworks = .included
  metadataPointers : w.metadataPointers = .enabled

/-- The writer with the options that a load of its file takes. -/
def withLoaded (w : Writer) (now : SystemTime) (size : RecordSize) : Writer :=
  { w with toWriterBuilder := loadedOptions w now size }

variable {w : Writer} {l r : BitTrie (Leaf Value)} {now : SystemTime} {size : RecordSize}

theorem Untold.buildTree (h : w.Untold) : (w.withLoaded now size).buildTree = w.buildTree := by
  unfold Writer.buildTree withLoaded loadedOptions
  by_cases h6 : w.ipVersion = .v6
  · simp only [h6, h.ipv4Aliasing h6]
  · simp only [h6, false_and]

theorem Untold.metadata (h : w.Untold) (now' : SystemTime) (t : Tree) (size' : RecordSize) :
    (w.withLoaded now size).metadata now' t size' = w.metadata now t size' := by
  have hsecs : (w.withLoaded now size).buildEpochSecs now' = w.buildEpochSecs now := by
    show BitVec.ofNat 64 (((w.buildEpochSecs now).toNat * 10 ^ 9 : ℤ).toNat / 10 ^ 9) = _
    rw [show ((w.buildEpochSecs now).toNat * 10 ^ 9 : ℤ).toNat =
      (w.buildEpochSecs now).toNat * 10 ^ 9 by omega, Nat.mul_div_cancel _ (by decide),
      BitVec.ofNat_toNat, BitVec.setWidth_eq]
  unfold Writer.metadata
  rw [hsecs, h.metadataPointers]
  rfl

/-- With the options a load takes the writer writes the same file. -/
theorem Lays.toBytes_withLoaded {file database metadata : List UInt8} {layout : Mmdb.Layout}
    (h : w.Lays now file database metadata layout) (huntold : w.Untold)
    (hsize : size.bits = layout.recordSize) (now' : SystemTime) :
    (w.withLoaded now size).toBytes now' = .ok file := by
  obtain ⟨t, data, idToOffset, size', treeBytes, ht, hpush, -, hser, rfl, rfl, rfl, rfl⟩ := h
  obtain rfl : size = size' := RecordSize.bits_injective hsize
  refine toBytes_eq_ok.mpr ⟨t, data, idToOffset, size, treeBytes, ?_, hpush, rfl, hser, ?_⟩
  · rw [huntold.buildTree, ht]
  · rw [huntold.metadata]

theorem Inv.withLoaded (h : w.Inv l r) (huntold : w.Untold) : (w.withLoaded now size).Inv l r where
  models := h.models
  unpinned := h.unpinned
  height := h.height
  not_aliased := h.not_aliased
  reserved_iff q hq := by
    have hpaths : (w.withLoaded now size).reservedPaths = w.reservedPaths := by
      unfold WriterBuilder.reservedPaths
      rw [huntold.reservedNetworks]
      rfl
    rw [hpaths]
    exact h.reserved_iff q hq
  reduced := h.reduced

variable [Ipnet] [Maxminddb]

/-- A loaded writer writes the file it was loaded from. -/
theorem load_toBytes (hw : w.Reachable) (huntold : w.Untold) {file database metadata : List UInt8}
    {layout : Mmdb.Layout} (hlays : w.Lays now file database metadata layout)
    (hread : w.Readable now metadata) {reader : Reader}
    (hfrom : Maxminddb.fromSource file = .ok reader) (hreads : reader.Reads file)
    {nets : List (List Bool × Value)} (hnets : w.networks = .ok nets)
    (hroom : nets.length * w.ipVersion.treeDepth + 2 ^ 13 < 2 ^ 32)
    (hlen : w.tree.nodes.length + 144 < 2 ^ 32) {w' : Writer} (hload : load file = .ok w')
    (now' : SystemTime) : w'.toBytes now' = .ok file := by
  rcases hw.load_cases hlays hread hfrom hreads hnets (by omega) with
    ⟨w₁, size, hload₁, hw₁, hsize, hopt, hlen₁, -, hget⟩ | ⟨net, n, -, -, -, herr⟩
  · obtain rfl : w' = w₁ := Except.ok.inj (hload.symm.trans hload₁)
    obtain ⟨l, r, h⟩ := hw.inv
    obtain ⟨l', r', h'⟩ := hw₁.inv
    have hl : (w.withLoaded now size).Inv l r := h.withLoaded huntold
    have hbuilt := hl.builtTrie_congr h' hopt (fun ip => (hget ip).symm) (by
      show w.tree.nodes.length < 2 ^ 32
      omega) (by omega)
    rw [← hlays.toBytes_withLoaded huntold hsize now']
    exact (toBytes_eq_of_builtTrie hl.models h'.models hl.unpinned h'.unpinned hl.not_aliased
      h'.not_aliased hw.indexed hw₁.indexed hbuilt hopt rfl hlen (by omega) now' now').symm
  · rw [hload] at herr
    cases herr

omit [Ipnet] [Maxminddb] in
/-- At any later time, a database with aliases is loaded and written again. -/
theorem load_toBytes_city :
    let _ := Ipnet.std
    ∃ (_ : Maxminddb) (w w' : Writer) (file : List UInt8) (nets : List (List Bool × Value)),
      w.ipVersion = .v6 ∧ w.ipv4Aliasing = .enabled ∧ w.networks = .ok nets ∧ nets.length = 2 ∧
      w.toBytes 0 = .ok file ∧ load file = .ok w' ∧ ∀ now', w'.toBytes now' = .ok file := by
  intro _
  obtain ⟨w, file, database, metadata, layout, reader, nets, hr, hopt, hnodes, hfile, hlays, hread,
    hnets, htwo, hno, -, -, hreads⟩ := reads_city
  let M := Maxminddb.single file reader
  have hver : w.ipVersion = .v6 := by rw [hopt]
  have hal : w.ipv4Aliasing = .enabled := by rw [hopt]
  have huntold : w.Untold := by
    constructor <;> rw [hopt]
    exact fun _ => rfl
  have hfrom := Maxminddb.fromSource_single file reader
  rcases hr.load_cases hlays hread hfrom hreads hnets (by rw [htwo, hver]; decide) with
    ⟨w', size, hload, -⟩ | ⟨net, n, hn, -, ⟨-, a, ha, hpre⟩, -⟩
  · exact ⟨M, w, w', file, nets, hver, hal, hnets, htwo, hfile, hload, fun now' =>
      load_toBytes hr huntold hlays hread hfrom hreads hnets (by rw [htwo, hver]; decide)
        (by omega) hload now'⟩
  · exact absurd hpre (hno n hn a ha)

end Writer

end MmdbWriter
