import MmdbWriter.Proofs.Contents
import MmdbWriter.Proofs.RecordSizes

/-!
# When a file is not written

A writer that any calls leave is written, or is refused as too large: the aliases find the tree full,
or the tree and the data section outgrow the records. No value of it is missing, and no lookup fails.
-/

namespace MmdbWriter

open BitTrie (leaf node)

namespace Tree

variable {t : Tree} {size : RecordSize} {idToOffset : List (ValueId × ℕ)}

/-- Records with values are refused only as too large for a size. -/
theorem serializeNodes_error {nodeCount : ℕ} : ∀ {nodes : List Node} {e : Fault},
    (∀ n ∈ nodes, ∀ rec, rec = n.left ∨ rec = n.right →
      recordValue nodeCount idToOffset rec ≠ none) →
    serializeNodes nodeCount size idToOffset nodes = .error e →
    e = .err (.treeTooLarge nodeCount size.maxValue size)
  | [], e, _, h => by cases h
  | n :: nodes, e, hvalued, h => by
    have hrec : ∀ rec, rec = n.left ∨ rec = n.right → ∀ {e},
        encodeRecord rec nodeCount size idToOffset = .error e →
        e = .err (.treeTooLarge nodeCount size.maxValue size) := by
      intro rec hside e he
      have hsome := hvalued n List.mem_cons_self rec hside
      rw [encodeRecord_eq] at he
      cases hv : recordValue nodeCount idToOffset rec with
      | none => exact absurd hv hsome
      | some v =>
        rw [hv] at he
        dsimp only at he
        split_ifs at he
        cases he
        rfl
    unfold serializeNodes at h
    cases hl : encodeRecord n.left nodeCount size idToOffset with
    | error e' =>
      rw [hl] at h
      cases h
      exact hrec _ (Or.inl rfl) hl
    | ok l =>
      cases hr : encodeRecord n.right nodeCount size idToOffset with
      | error e' =>
        rw [hl, hr] at h
        cases h
        exact hrec _ (Or.inr rfl) hr
      | ok r =>
        cases hn : serializeNodes nodeCount size idToOffset nodes with
        | error e' =>
          rw [hl, hr] at h
          simp only [bind, Except.bind, hn] at h
          cases h
          exact serializeNodes_error (fun n' hn' => hvalued n' (List.mem_cons_of_mem n hn')) hn
        | ok out =>
          rw [hl, hr] at h
          simp only [bind, Except.bind, hn] at h
          cases h

theorem serialize_error
    (hvalued : ∀ rec ∈ t.records, ∃ v, recordValue t.nodeCount idToOffset rec = some v) {e : Fault} (h : t.serialize size idToOffset = .error e) :
    e = .err (.treeTooLarge t.nodeCount size.maxValue size) := by
  refine serializeNodes_error (fun n hn rec hside => ?_) h
  obtain ⟨i, hi⟩ := List.mem_iff_getElem?.mp hn
  obtain ⟨v, hv⟩ := hvalued rec (mem_records.mpr ⟨i, n, hi, hside⟩)
  rw [hv]
  simp

end Tree

namespace Writer

theorem maxValue_le (size : RecordSize) : size.maxValue ≤ 2 ^ 32 := by
  cases size <;> decide

/-- No size is picked only where none has room, and the failure names the widest one. -/
theorem pickRecordSize_error {t : Tree} {dataLen : ℕ} {e : Fault}
    (h : pickRecordSize t dataLen none = .error e) :
    e = .err (.treeTooLarge t.nodeCount RecordSize.bits32.maxValue .bits32) ∧
      ∀ size : RecordSize, size.maxValue ≤ t.nodeCount + 16 + dataLen := by
  unfold pickRecordSize at h
  simp only [] at h
  split at h
  · cases h
  · rename_i hfind
    refine ⟨(Except.error.inj h).symm, fun size => ?_⟩
    have hfits := List.find?_eq_none.mp hfind size (by cases size <;> decide)
    rwa [Tree.fitsRecordSize, decide_eq_true_eq, not_lt] at hfits

/-- Where a size has room one is picked, and no wider one. -/
theorem exists_pickRecordSize {t : Tree} {dataLen : ℕ} {size : RecordSize}
    (h : t.nodeCount + 16 + dataLen < size.maxValue) :
    ∃ size', pickRecordSize t dataLen none = .ok size' ∧ size'.bits ≤ size.bits := by
  cases hpick : pickRecordSize t dataLen none with
  | error e => exact absurd ((pickRecordSize_error hpick).2 size) (Nat.not_le.mpr h)
  | ok size' =>
    refine ⟨size', rfl, ?_⟩
    by_contra hlt
    exact (pickRecordSize_eq_ok.mp hpick).2 size (by omega) h

theorem exists_pushIds {pool : ValuePool} : ∀ {ids : List ValueId} {data : DataSection}
    {m : List (ValueId × ℕ)}, (∀ id ∈ ids, ∃ v, pool.values[id]? = some v) →
    ∃ res, pushIds pool ids data m = .ok res
  | [], data, m, _ => ⟨(data, m), rfl⟩
  | id :: ids, data, m, h => by
    obtain ⟨v, hv⟩ := h id List.mem_cons_self
    obtain ⟨res, hres⟩ : ∃ res, pushIds pool ids (data.push v).1 ((id, (data.push v).2) :: m) =
        .ok res := exists_pushIds fun id' hid => h id' (List.mem_cons_of_mem id hid)
    refine ⟨res, ?_⟩
    unfold pushIds ValuePool.get
    rw [hv]
    exact hres

/-- Every record of a built tree has a value. -/
theorem valued_of_pushIds {t : Tree} {data : DataSection} {idToOffset : List (ValueId × ℕ)}
    {pool : ValuePool}
    (hpush : pushIds pool t.reachableDataIds DataSection.new [] = .ok (data, idToOffset)) :
    ∀ rec ∈ t.records, ∃ v, Tree.recordValue t.nodeCount idToOffset rec = some v := by
  intro rec hrec
  cases rec with
  | data id =>
    obtain ⟨values, -, -, hlookup⟩ := lookup_pushIds hpush
    obtain ⟨v, offset, hoff, -⟩ := hlookup id (Tree.mem_reachableDataIds.mpr hrec)
    exact ⟨t.nodeCount + 16 + offset, by rw [Tree.recordValue, hoff]; rfl⟩
  | noData | reserved | node i | fixedNode i | aliased i => exact ⟨_, rfl⟩

variable [Ipnet] {w : Writer}

theorem Reachable.exists_pushIds (hw : w.Reachable) {t : Tree} (ht : w.buildTree = .ok t) :
    ∃ data idToOffset, pushIds w.pool t.reachableDataIds DataSection.new [] = .ok (data, idToOffset) := by
  obtain ⟨l, r, hinv⟩ := hw.inv
  obtain ⟨v4, lu, ru, hst, -, hrel⟩ := hinv.built hw.indexed ht
  have hids : ∀ id ∈ t.reachableDataIds, ∃ v, w.pool.values[id]? = some v := fun id hid => by
    obtain ⟨p, hp⟩ := (Tree.mem_reachableDataIds_of_stores hst).mp hid
    have hleaf := hrel.eval p
    rw [hp] at hleaf
    generalize (w.builtTrie (node false l r)).eval p = a at hleaf
    cases a with
    | data v => exact ⟨v, hleaf⟩
    | noData | aliased | reserved => cases hleaf
  obtain ⟨⟨data, idToOffset⟩, hpush⟩ := Writer.exists_pushIds hids
  exact ⟨data, idToOffset, hpush⟩

/-- A tree and a data section that a size has room for are written with it. -/
theorem Grown.exists_serialize (hw : w.Grown) {t : Tree} (ht : w.buildTree = .ok t)
    {data : DataSection} {idToOffset : List (ValueId × ℕ)}
    (hpush : pushIds w.pool t.reachableDataIds DataSection.new [] = .ok (data, idToOffset))
    {size : RecordSize} (h : t.nodeCount + 16 + data.len < size.maxValue) :
    ∃ bytes, t.serialize size idToOffset = .ok bytes := by
  have hlen : data.len < 2 ^ 32 := by
    have := maxValue_le size
    omega
  obtain ⟨size', hpick, hbits⟩ := exists_pickRecordSize h
  obtain ⟨bytes, hser⟩ := (serialize_correct hw ht hpush hlen).picked size' hpick
  exact Tree.serialize_of_bits hser hbits

/-- A writer fails to write its file only as too large. Then it has aliases to install in a tree that
is 144 nodes short of full, or the tree and the data section outgrow the record size, the widest one if
none is pinned. And `get` does not fail. -/
theorem fails_too_large (hw : w.Reachable) :
    (∀ ip, ∃ old, w.get ip = .ok old) ∧ ∀ now e, w.toBytes now = .error e →
      (∃ n, e = .err (.treeTooLarge n u32Max .bits32) ∧ 2 ^ 32 ≤ w.tree.nodes.length + 144 ∧
        w.ipVersion = .v6 ∧ w.ipv4Aliasing = .enabled) ∨
      ∃ t data idToOffset, w.buildTree = .ok t ∧
        pushIds w.pool t.reachableDataIds DataSection.new [] = .ok (data, idToOffset) ∧
        (w.recordSize.getD .bits32).maxValue ≤ t.nodeCount + 16 + data.len ∧
        e = .err (.treeTooLarge t.nodeCount (w.recordSize.getD .bits32).maxValue
          (w.recordSize.getD .bits32)) := by
  obtain ⟨l, r, hinv⟩ := hw.inv
  refine ⟨fun ip => ?_, fun now e herr => ?_⟩
  · cases hq : addrPath w.ipVersion ip with
    | none => exact ⟨_, get_of_addrPath_none hq⟩
    | some q => exact ⟨_, hinv.get hq⟩
  obtain ⟨li, ri, fp, hst, hnd, hkl, hkr, -, -⟩ := hinv.settles.ids
  obtain ⟨hu, ha, -⟩ := KidShape.node hkl hkr
  rcases buildTree_ids hst hnd hw.indexed hu ha.eval with ⟨t, ht, -⟩ | ⟨n, hn, hfull, h6, hal⟩
  · right
    obtain ⟨data, idToOffset, hpush⟩ := hw.exists_pushIds ht
    refine ⟨t, data, idToOffset, ht, hpush, ?_⟩
    have hvalued := valued_of_pushIds hpush
    unfold toBytes at herr
    simp only [ht, hpush, bind, Except.bind] at herr
    cases hsize : w.recordSize with
    | some size =>
      cases hser : t.serialize size idToOffset with
      | ok bytes =>
        rw [hsize] at herr
        simp only [pickRecordSize, hser] at herr
        cases herr
      | error e' =>
        rw [hsize] at herr
        simp only [pickRecordSize, hser, Except.error.injEq] at herr
        rw [← herr]
        refine ⟨?_, Tree.serialize_error hvalued hser⟩
        by_contra hroom
        obtain ⟨bytes, hser'⟩ := hw.grown.exists_serialize ht hpush (Nat.not_le.mp hroom)
        cases hser.symm.trans hser'
    | none =>
      rw [hsize] at herr
      cases hpick : pickRecordSize t data.len none with
      | error e' =>
        simp only [hpick, Except.error.injEq] at herr
        rw [← herr]
        exact ⟨(pickRecordSize_error hpick).2 .bits32, (pickRecordSize_error hpick).1⟩
      | ok size =>
        obtain ⟨bytes, hser⟩ := hw.grown.exists_serialize ht hpush (pickRecordSize_eq_ok.mp hpick).1
        simp only [hpick, hser] at herr
        cases herr
  · left
    unfold toBytes at herr
    rw [hn] at herr
    cases herr
    exact ⟨n, rfl, hfull, h6, hal⟩

omit [Ipnet] in
/-- A file that is written at one time is written at any other. -/
theorem fails_too_large_later :
    let _ := Ipnet.std
    ∃ (w : Writer) (file : List UInt8), w.toBytes 0 = .ok file ∧
      (∀ ip, ∃ old, w.get ip = .ok old) ∧ ∀ now, ∃ file, w.toBytes now = .ok file := by
  intro _
  obtain ⟨w, file, hr, hopt, hnodes, hfile, -, -⟩ := small_city
  obtain ⟨hget, hfails⟩ := fails_too_large hr
  refine ⟨w, file, hfile, hget, fun now => ?_⟩
  cases hnow : w.toBytes now with
  | ok file' => exact ⟨file', rfl⟩
  | error e =>
    have hsize : w.recordSize = none := by rw [hopt]
    obtain ⟨t, data, idToOffset, size, treeBytes, ht, hpush, hpick, -⟩ := toBytes_eq_ok.mp hfile
    rcases hfails now e hnow with ⟨n, -, hfull, -, -⟩ | ⟨t', data', idToOffset', ht', hpush', hfull, -⟩
    · omega
    · obtain rfl : t = t' := Except.ok.inj (ht.symm.trans ht')
      obtain ⟨rfl, -⟩ := Prod.mk.inj (Except.ok.inj (hpush.symm.trans hpush'))
      rw [hsize] at hpick hfull
      have hroom := (pickRecordSize_eq_ok.mp hpick).1
      have hmax := maxValue_le size
      exact absurd (hroom.trans_le hmax) (Nat.not_lt.mpr hfull)

end Writer

end MmdbWriter
