import MmdbWriter.Proofs.Within

/-!
# What a data section holds

A value that no address has any more stays in the pool, but a build collects the ids from the records of
the built tree. So the file holds the values that `get` returns, each of them once, and no others.
-/

namespace MmdbWriter

open BitTrie (leaf node)

namespace Tree

theorem nodup_foldl_collectId : ∀ (rs : List Record) (ids : List ValueId), ids.Nodup →
    (rs.foldl collectId ids).Nodup
  | [], _, h => h
  | rec :: rs, ids, h => by
    refine nodup_foldl_collectId rs _ ?_
    cases rec with
    | data id =>
      show (if id ∈ ids then ids else ids ++ [id]).Nodup
      split_ifs with hid
      · exact h
      · exact List.nodup_append.mpr ⟨h, List.nodup_singleton id, fun a ha b hb hab =>
          hid (by rwa [← List.mem_singleton.mp hb, ← hab])⟩
    | noData | node _ | fixedNode _ | aliased _ | reserved => exact h

theorem nodup_reachableDataIds (t : Tree) : t.reachableDataIds.Nodup := by
  rw [reachableDataIds_eq]
  exact nodup_foldl_collectId _ [] List.nodup_nil

theorem mem_reachableDataIds_of_stores {t : Tree} {v4 : ℕ} {l r : BitTrie (Leaf ValueId)}
    (hst : NodeStores t.nodes v4 0 l r (List.range t.nodes.length)) {id : ValueId} :
    id ∈ t.reachableDataIds ↔ ∃ p, (node false l r).eval p = .data id := by
  rw [mem_reachableDataIds, mem_records, exists_data_iff (nodeStores_unpinned hst)]
  simp only [reduceCtorEq, false_or, List.mem_range]
  constructor
  · rintro ⟨i, n, hn, hid⟩
    exact ⟨i, (List.getElem?_eq_some_iff.mp hn).1, n, hn, hid⟩
  · rintro ⟨i, -, n, hn, hid⟩
    exact ⟨i, n, hn, hid⟩

end Tree

namespace Writer

/-- The values of different ids are different. -/
theorem nodup_values {pool : ValuePool} {ids : List ValueId} {values : List Value}
    (h : List.Forall₂ (fun id v => pool.values[id]? = some v) ids values) (hids : ids.Nodup) :
    values.Nodup := by
  induction h with
  | nil => exact List.nodup_nil
  | @cons id v ids values hv hrest ih =>
    obtain ⟨hid, hids⟩ := List.nodup_cons.mp hids
    refine List.nodup_cons.mpr ⟨fun hmem => hid ?_, ih hids⟩
    obtain ⟨id', hid', hv'⟩ := forall₂_exists_right hrest v hmem
    rwa [pool.id_unique hv hv']

variable [Ipnet] {w : Writer} {l r : BitTrie (Leaf Value)}

/-- The values of the leaves are those that `get` returns. -/
theorem Inv.exists_get_iff (h : w.Inv l r) (v : Value) :
    (∃ ip, w.get ip = .ok (some v)) ↔ ∃ p, (node false l r).eval p = .data v := by
  have hvalue : ∀ q : List Bool, ((node false l r).eval q).value = some v ↔
      (node false l r).eval q = .data v := fun q => by
    cases (node false l r).eval q <;> simp [Leaf.value]
  constructor
  · rintro ⟨ip, hget⟩
    cases hq : addrPath w.ipVersion ip with
    | none =>
      rw [get_of_addrPath_none hq] at hget
      cases hget
    | some q =>
      rw [h.get hq, Except.ok.injEq] at hget
      exact ⟨q, (hvalue q).mp hget⟩
  · rintro ⟨p, hp⟩
    let q := (p ++ List.replicate w.ipVersion.treeDepth false).take w.ipVersion.treeDepth
    obtain ⟨ip, hip⟩ := exists_addrPath w.ipVersion (q := q) (by simp [q])
    refine ⟨ip, ?_⟩
    rw [h.get hip, Except.ok.injEq, hvalue, BitTrie.eval_take _ _ _ h.height,
      BitTrie.eval_append_replicate, hp]

/-- The data section of a file is that of the values `get` returns, each of them once. -/
theorem dataSection_eq (hw : w.Reachable) {now : SystemTime} {file database metadata : List UInt8}
    {layout : Mmdb.Layout} (hlays : w.Lays now file database metadata layout) :
    ∃ values : List Value, values.Nodup ∧ (∀ v, v ∈ values ↔ ∃ ip, w.get ip = .ok (some v)) ∧
      Mmdb.dataSection database layout.nodeCount layout.recordSize =
        (DataSection.ofValues values).bytes := by
  obtain ⟨t, data, idToOffset, size, treeBytes, ht, hpush, -, hser, rfl, rfl, rfl, -⟩ := hlays
  obtain ⟨l, r, hinv⟩ := hw.inv
  obtain ⟨v4, lu, ru, hst, -, hrel⟩ := hinv.built hw.indexed ht
  obtain ⟨values, hvalues, rfl, -⟩ := pushIds_spec hpush
  refine ⟨values, nodup_values hvalues t.nodup_reachableDataIds, fun v => ?_, dataSection_parts hser _⟩
  have hbuilt : ∀ p, (w.builtTrie (node false l r)).eval p = .data v ↔
      (node false l r).eval p = .data v := fun p => by
    rw [w.builtTrie_eq, BitTrie.eval_normKids, w.eval_aliasedTrie_data]
  rw [hinv.exists_get_iff]
  constructor
  · intro hv
    obtain ⟨id, hid, hidv⟩ := forall₂_exists_right hvalues v hv
    obtain ⟨p, hp⟩ := (Tree.mem_reachableDataIds_of_stores hst).mp hid
    refine ⟨p, (hbuilt p).mp ?_⟩
    have hleaf := hrel.eval p
    rw [hp] at hleaf
    have hv' : IdRel w.pool (.data id) (.data v) := hidv
    exact hleaf.right_unique hv'
  · rintro ⟨p, hp⟩
    have hleaf := hrel.eval p
    rw [(hbuilt p).mpr hp] at hleaf
    cases hid : (node false lu ru).eval p with
    | data id =>
      rw [hid] at hleaf
      obtain ⟨v', hv', hidv⟩ := forall₂_exists_left hvalues id
        ((Tree.mem_reachableDataIds_of_stores hst).mpr ⟨p, hid⟩)
      obtain rfl : v = v' := Option.some.inj ((show _ = some v from hleaf).symm.trans hidv)
      exact hv'
    | noData | aliased | reserved =>
      rw [hid] at hleaf
      cases hleaf

omit [Ipnet] in
/-- An overwritten value stays in the pool, but not in the file. -/
theorem dataSection_eq_overwritten :
    let _ := Ipnet.std
    ∃ (w : Writer) (file database metadata : List UInt8) (layout : Mmdb.Layout) (values : List Value),
      w.toBytes 0 = .ok file ∧ w.Lays 0 file database metadata layout ∧ w.pool.values.length = 2 ∧
      values.Nodup ∧ (∀ v, v ∈ values ↔ ∃ ip, w.get ip = .ok (some v)) ∧
      Mmdb.dataSection database layout.nodeCount layout.recordSize =
        (DataSection.ofValues values).bytes := by
  intro _
  let net : IpNet := .v4 ⟨0x01000000, 8, by decide⟩
  let b : WriterBuilder := { databaseType := "City", ipVersion := .v4 }
  let calls : List Call := [.insert (.value net (.string "a")), .insert (.value net (.string "b"))]
  let w : Writer := { toWriterBuilder := b, tree := Tree.new, pool := ValuePool.new }
  have hw : (run calls w).2.Reachable := ⟨b, w, calls, rfl, by decide +kernel, rfl⟩
  obtain ⟨file, hfile⟩ : ∃ file, (run calls w).2.toBytes 0 = .ok file :=
    ⟨((run calls w).2.toBytes 0).toOption.getD [], by decide +kernel⟩
  have hpool : (run calls w).2.pool.values.length = 2 := by decide +kernel
  obtain ⟨_, _, _, hlays⟩ := toBytes_eq_ok_iff_lays.mp hfile
  obtain ⟨values, hnodup, hmem, hdata⟩ := dataSection_eq hw hlays
  exact ⟨_, file, _, _, _, values, hfile, hlays, hpool, hnodup, hmem, hdata⟩

end Writer

end MmdbWriter
