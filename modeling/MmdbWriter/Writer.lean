import MmdbWriter.Metadata
import MmdbWriter.Net
import MmdbWriter.Tree

/-!
# The writer

Accumulates networks and their values in a tree over interned ids, and lays out the file: the
search tree, a separator, the data section, a marker and the metadata.
-/

namespace MmdbWriter

/-- `SystemTime`, in nanoseconds from the Unix epoch. -/
abbrev SystemTime := ℤ

/-- The options of `Writer::builder`. -/
structure WriterBuilder where
  databaseType : String
  languages : List String := ["en"]
  description : List (String × String) := []
  ipVersion : IpVersion := .v6
  recordSize : Option RecordSize := none
  ipv4Aliasing : Ipv4Aliasing := .enabled
  reservedNetworks : ReservedNetworks := .included
  metadataPointers : MetadataPointers := .enabled
  buildEpoch : Option SystemTime := none
deriving Repr

/-- Builds a database and serializes it: the options, with the descriptions collected into a map,
and the data inserted so far. -/
structure Writer extends WriterBuilder where
  tree : Tree
  pool : ValuePool

namespace WriterBuilder

variable [Ipnet]

/-- The loop of `Writer::builder` over the reserved networks. -/
def paintAll (ipVersion : IpVersion) : List IpNet → Exec Fault Tree Unit
  | [] => pure ()
  | network :: networks => do
    match toTreePrefix network ipVersion with
    | .ok (bits, prefixLen) => Tree.paintReserved bits prefixLen
    | .error _ => .stop .panic
    paintAll ipVersion networks

/-- `Writer::builder(..).build()`; a reserved network that does not fit the tree is a panic. -/
def build (b : WriterBuilder) : Except Fault Writer :=
  let b' := { b with description := b.description.foldl (fun m e => mapInsert e.1 e.2 m) [] }
  if b.reservedNetworks = .excluded then
    match paintAll b.ipVersion (Reserved.networks b.ipVersion) Tree.new with
    | (.ok (), tree) => .ok { toWriterBuilder := b', tree := tree, pool := ValuePool.new }
    | (.error _, _) => .error .panic
  else .ok { toWriterBuilder := b', tree := Tree.new, pool := ValuePool.new }

end WriterBuilder

namespace Writer

section Insert

variable [Ipnet] {τ : Type}

/-- `ensure_insertable`. -/
def ensureInsertable (w : Writer) (net : IpNet) : Except Fault Unit :=
  if w.ipVersion = .v6 ∧ w.ipv4Aliasing = .enabled ∧
      aliasNetworks.any (fun a => Ipnet.contains a net) then
    .error (.err (.aliasedNetwork net))
  else if w.reservedNetworks = .excluded ∧
      (Reserved.networks w.ipVersion).any (fun r => Ipnet.contains r net) then
    .error (.err (.reservedNetwork net))
  else .ok ()

/-- A call on the writer's pool. -/
def onPool {α : Type} (x : Exec Fault ValuePool α) : Exec Fault Writer α := fun w =>
  ((x w.pool).1, { w with pool := (x w.pool).2 })

/-- A call on the writer's tree. -/
def onTree {α : Type} (x : Exec Fault (Tree × Unit) α) : Exec Fault Writer α := fun w =>
  ((x (w.tree, ())).1, { w with tree := (x (w.tree, ())).2.1 })

/-- A call on the writer's tree and pool, with a state of the caller's. -/
def onTreePool {α : Type} (x : Exec Fault (Tree × ValuePool × τ) α) :
    Exec Fault (Writer × τ) α := fun s =>
  let r := x (s.1.tree, s.1.pool, s.2)
  (r.1, ({ s.1 with tree := r.2.1, pool := r.2.2.1 }, r.2.2.2))

/-- `Writer::insert_value`. -/
def insertValue (net : IpNet) (value : Value) : Exec Fault Writer Unit := do
  let w ← Exec.read
  Exec.lift (w.ensureInsertable net)
  let pre ← Exec.lift (toTreePrefix net w.ipVersion)
  let id ← onPool (ValuePool.intern value)
  onTree (Tree.insert pre.1 pre.2 fun _ => pure (some id))

/-- The closure `insert_with` hands to the tree: the old value is looked up, the new one interned.
`op` is an `FnMut`, its captured state passed along. -/
def leafOp (op : Option Value → τ → Option Value × τ) (oldId : Option ValueId) :
    Exec Fault (ValuePool × τ) (Option ValueId) := do
  let s ← Exec.read
  let oldValue ← match oldId with
    | some id => do
      let v ← Exec.lift (s.1.get id)
      pure (some v)
    | none => pure none
  let newValue ← Exec.onSnd fun t => (.ok (op oldValue t).1, (op oldValue t).2)
  match newValue with
  | some v => do
    let id ← Exec.onFst (ValuePool.intern v)
    pure (some id)
  | none => pure none

/-- `Writer::insert_with`. -/
def insertWith (net : IpNet) (op : Option Value → τ → Option Value × τ) :
    Exec Fault (Writer × τ) Unit := do
  let s ← Exec.read
  Exec.lift (s.1.ensureInsertable net)
  let pre ← Exec.lift (toTreePrefix net s.1.ipVersion)
  onTreePool (Tree.insert pre.1 pre.2 (leafOp op))

/-- `insert_with` of an operation that captures nothing. -/
def insertWithFn (net : IpNet) (f : Option Value → Option Value) : Exec Fault Writer Unit :=
  fun w =>
    let r := insertWith net (fun old t => (f old, t)) (w, ())
    (r.1, r.2.1)

/-- What `insert_value_merged` makes of the existing value. -/
def mergeOp (strategy : MergeStrategy) (value : Value) (existing : Option Value) : Option Value :=
  match strategy with
  | .replace => some value
  | .topLevelMerge => some (match existing with
    | some old => Value.mergeTopLevel old value
    | none => value)
  | .deepMerge => some (match existing with
    | some old => Value.mergeDeep old value
    | none => value)

/-- `Writer::insert_value_merged`. -/
def insertValueMerged (net : IpNet) (value : Value) (strategy : MergeStrategy) :
    Exec Fault Writer Unit :=
  match strategy with
  | .replace => insertValue net value
  | .topLevelMerge => insertWithFn net (mergeOp .topLevelMerge value)
  | .deepMerge => insertWithFn net (mergeOp .deepMerge value)

/-- The loop of `insert_range` over the networks of the range. -/
def insertAll (value : Value) : List IpNet → Exec Fault Writer Unit
  | [] => pure ()
  | network :: networks => do
    insertValue network value
    insertAll value networks

/-- `Writer::insert_range`. -/
def insertRange (start stop : IpAddr) (value : Value) : Exec Fault Writer Unit := do
  let networks ← Exec.lift (rangeToNetworks start stop)
  insertAll value networks

/-- `Writer::get`. -/
def get (w : Writer) (ip : IpAddr) : Except Fault (Option Value) :=
  match toTreePrefix (.ofAddr ip) w.ipVersion with
  | .error _ => .ok none
  | .ok (bits, _) => do
    let id ← w.tree.get bits w.ipVersion.treeDepth
    match id with
    | some id => do
      let v ← w.pool.get id
      .ok (some v)
    | none => .ok none

end Insert

section Build

/-- 16 bytes separating the tree section from the data section. -/
def dataSectionSeparator : List UInt8 := List.replicate 16 0

/-- The marker `\xab\xcd\xefMaxMind.com` that precedes the metadata section. -/
def metadataMarker : List UInt8 :=
  [0xab, 0xcd, 0xef, 0x4d, 0x61, 0x78, 0x4d, 0x69, 0x6e, 0x64, 0x2e, 0x63, 0x6f, 0x6d]

/-- The tree `build` serializes: a copy with the aliases installed, compacted. -/
def buildTree (w : Writer) : Except Fault Tree :=
  let install : Exec Fault Tree Unit :=
    if w.ipVersion = .v6 ∧ w.ipv4Aliasing = .enabled then Tree.installIpv4Aliases else pure ()
  match (install >>= fun _ => Tree.compact) w.tree with
  | (.ok (), tree) => .ok tree
  | (.error e, _) => .error e

/-- The loop of `build` over the ids: encode the values, and map each id to its offset. -/
def pushIds (pool : ValuePool) : List ValueId → DataSection → List (ValueId × ℕ) →
    Except Fault (DataSection × List (ValueId × ℕ))
  | [], data, idToOffset => .ok (data, idToOffset)
  | id :: ids, data, idToOffset => do
    let value ← pool.get id
    pushIds pool ids (data.push value).1 ((id, (data.push value).2) :: idToOffset)

/-- `pick_record_size`. -/
def pickRecordSize (tree : Tree) (dataLen : ℕ) (requested : Option RecordSize) :
    Except Fault RecordSize :=
  match requested with
  | some size => .ok size
  | none =>
    match RecordSize.ascending.find? (fun c => tree.fitsRecordSize c dataLen) with
    | some size => .ok size
    | none => .error (.err (.treeTooLarge tree.nodeCount RecordSize.bits32.maxValue .bits32))

/-- `build_epoch_secs`, at the time `now`. -/
def buildEpochSecs (w : Writer) (now : SystemTime) : BitVec 64 :=
  BitVec.ofNat 64 ((w.buildEpoch.getD now).toNat / 10 ^ 9)

/-- The metadata `build` writes. -/
def metadata (w : Writer) (now : SystemTime) (tree : Tree) (recordSize : RecordSize) : Metadata where
  databaseType := w.databaseType
  description := w.description
  languages := w.languages
  ipVersion := w.ipVersion
  recordSize := recordSize
  nodeCount := tree.nodeCount
  buildEpoch := w.buildEpochSecs now
  disablePointers := w.metadataPointers = .disabled

/-- `to_bytes` at the time `now`. -/
def toBytes (w : Writer) (now : SystemTime) : Except Fault (List UInt8) := do
  let tree ← w.buildTree
  let (data, idToOffset) ← pushIds w.pool tree.reachableDataIds DataSection.new []
  let recordSize ← pickRecordSize tree data.len w.recordSize
  let treeBytes ← tree.serialize recordSize idToOffset
  .ok (treeBytes ++ dataSectionSeparator ++ data.bytes ++ metadataMarker ++
    (w.metadata now tree recordSize).toBytes)

/-- The steps behind a file. -/
theorem toBytes_eq_ok {w : Writer} {now : SystemTime} {file : List UInt8} :
    w.toBytes now = .ok file ↔ ∃ tree data idToOffset recordSize treeBytes,
      w.buildTree = .ok tree ∧
      pushIds w.pool tree.reachableDataIds DataSection.new [] = .ok (data, idToOffset) ∧
      pickRecordSize tree data.len w.recordSize = .ok recordSize ∧
      tree.serialize recordSize idToOffset = .ok treeBytes ∧
      file = treeBytes ++ dataSectionSeparator ++ data.bytes ++ metadataMarker ++
        (w.metadata now tree recordSize).toBytes := by
  unfold toBytes
  simp only [bind, Except.bind]
  constructor
  · intro h
    split at h
    · cases h
    rename_i tree htree
    split at h
    · cases h
    rename_i pushed hpush
    split at h
    · cases h
    rename_i recordSize hsize
    split at h
    · cases h
    rename_i treeBytes hser
    rw [Except.ok.injEq] at h
    exact ⟨tree, pushed.1, pushed.2, recordSize, treeBytes, htree, hpush, hsize, hser, h.symm⟩
  · rintro ⟨tree, data, idToOffset, recordSize, treeBytes, htree, hpush, hsize, hser, rfl⟩
    rw [htree]
    simp only [hpush, hsize, hser]

end Build

end Writer

end MmdbWriter
