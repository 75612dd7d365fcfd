import MmdbWriter.Proofs.Load

/-!
# Loading whatever a reader returns

A file can be anything, and so can what a reader makes of it. A load ends with a writer that calls could
have built, or with an error of a few kinds; it does not panic unless the build epoch is past the range
of the clock.
-/

namespace MmdbWriter

open BitTrie (leaf node)

/-- The errors of a load. -/
inductive Error.OfLoad : Error → Prop
  | load (msg : String) : OfLoad (.load msg)
  | aliasedNetwork (net : IpNet) : OfLoad (.aliasedNetwork net)
  | ipv6InIpv4Tree (net : Ipv6Net) : OfLoad (.ipv6InIpv4Tree net)

/-- The load ended with an error of its kinds. -/
def FailsToLoad {α : Type} (res : Except Fault α) : Prop :=
  ∃ e, Error.OfLoad e ∧ res = .error (.err e)

theorem loadErr_cases {α : Type} (x : Except String α) :
    (∃ a, x = .ok a ∧ loadErr x = .ok a) ∨ FailsToLoad (loadErr x) := by
  cases x with
  | ok a => exact Or.inl ⟨a, rfl, rfl⟩
  | error msg => exact Or.inr ⟨_, .load msg, rfl⟩

namespace FailsToLoad

variable {α β : Type}

theorem bind {x : Except Fault α} (h : FailsToLoad x) (f : α → Except Fault β) :
    FailsToLoad (x >>= f) := by
  obtain ⟨e, he, rfl⟩ := h
  exact ⟨e, he, rfl⟩

end FailsToLoad

theorem recordSizeFrom_cases (bits : BitVec 16) :
    (∃ size, recordSizeFrom bits = .ok size) ∨ FailsToLoad (recordSizeFrom bits) := by
  unfold recordSizeFrom
  split_ifs
  · exact Or.inl ⟨_, rfl⟩
  · exact Or.inl ⟨_, rfl⟩
  · exact Or.inl ⟨_, rfl⟩
  · exact Or.inr ⟨_, .load _, rfl⟩

namespace Writer

variable [Ipnet] {w : Writer} {l r : BitTrie (Leaf Value)}

theorem checks_cases_default (hres : w.reservedNetworks = .included) (net : IpNet) :
    w.checks net = .ok () ∨ FailsToLoad (w.checks net) := by
  unfold checks ensureInsertable
  split_ifs with halias hreserved
  · exact Or.inr ⟨_, .aliasedNetwork net, rfl⟩
  · rw [hres] at hreserved
    cases hreserved.1
  · rcases toTreePrefix_cases net w.ipVersion with ⟨_, _, hpre, -⟩ | ⟨n, -, -, -, hpre⟩ <;> rw [hpre]
    · exact Or.inl rfl
    · exact Or.inr ⟨_, .ipv6InIpv4Tree _, rfl⟩

/-- With room for one more insert a value is inserted, or refused by the checks. -/
theorem Inv.insertValue_cases (h : w.Inv l r) (hw : w.Reachable)
    (hres : w.reservedNetworks = .included) (net : IpNet) (v : Value)
    (hnodes : w.tree.nodes.length + w.ipVersion.treeDepth < 2 ^ 32)
    (hpool : w.pool.values.length + 1 < 2 ^ 32) :
    (∃ w' l' r', insertValue net v w = (.ok (), w') ∧ w'.Inv l' r' ∧ w'.Reachable ∧
      w'.toWriterBuilder = w.toWriterBuilder ∧
      w'.tree.nodes.length ≤ w.tree.nodes.length + w.ipVersion.treeDepth ∧
      w'.pool.values.length ≤ w.pool.values.length + 1) ∨
    ∃ e w', Error.OfLoad e ∧ insertValue net v w = (.error (.err e), w') := by
  obtain ⟨hn, hp⟩ := insertValue_length net v w
  have hchecks := h.insertValue_checks net v hnodes hpool
  rcases checks_cases_default hres net with hok | ⟨e, he, herr⟩
  · rw [hok] at hchecks
    have hno : ((Insert.value net v).exec w).1 ≠ .error .panic := by
      show (insertValue net v w).1 ≠ _
      rw [hchecks]
      simp
    obtain ⟨hopt, l', r', h'⟩ := h.insert_keeps (.value net v) hno
    exact Or.inl ⟨(insertValue net v w).2, l', r', Prod.ext hchecks rfl, h',
      hw.exec (.insert (.value net v)) hno, hopt, hn, hp⟩
  · exact Or.inr ⟨e, (insertValue net v w).2, he, Prod.ext (hchecks.trans herr) rfl⟩

variable [Maxminddb]

/-- Each item is skipped, inserted or refused. -/
theorem loadItems_cases : ∀ (items : List (Except String Maxminddb.Item)) {w : Writer}
    {l r : BitTrie (Leaf Value)}, w.Inv l r → w.Reachable → w.reservedNetworks = .included →
    w.tree.nodes.length + items.length * w.ipVersion.treeDepth < 2 ^ 32 →
    w.pool.values.length + items.length < 2 ^ 32 →
    (∃ w', loadItems items w = .ok w' ∧ w'.Reachable ∧ w'.toWriterBuilder = w.toWriterBuilder) ∨
      FailsToLoad (loadItems items w)
  | [], w, _, _, _, hw, _, _, _ => Or.inl ⟨w, rfl, hw, rfl⟩
  | item :: items, w, l, r, h, hw, hres, hnodes, hpool => by
    rw [List.length_cons, Nat.add_mul, Nat.one_mul] at hnodes
    rw [List.length_cons] at hpool
    rw [loadItems]
    rcases loadErr_cases item with ⟨item, -, hitem⟩ | hfail
    swap
    · exact Or.inr (hfail.bind _)
    rw [hitem]
    rcases loadErr_cases item.decode with ⟨value, -, hvalue⟩ | hfail
    swap
    · exact Or.inr (hfail.bind _)
    simp only [bind, Except.bind, hvalue]
    cases value with
    | none => exact loadItems_cases items h hw hres (by omega) (by omega)
    | some value =>
      rcases loadErr_cases item.network with ⟨network, -, hnetwork⟩ | hfail
      swap
      · exact Or.inr (hfail.bind _)
      simp only [hnetwork]
      cases IpNet.new network.1 network.2 with
      | none => exact Or.inr ⟨_, .load _, rfl⟩
      | some net =>
        rcases h.insertValue_cases hw hres net value (by omega) (by omega) with
          ⟨w', l', r', hins, h', hw', hopt, hn, hp⟩ | ⟨e, w', he, hins⟩
        · simp only [hins]
          have ih := loadItems_cases items h' hw' (by rw [hopt]; exact hres) (by
            rw [hopt]
            omega) (by omega)
          rwa [hopt] at ih
        · simp only [hins]
          exact Or.inr ⟨e, he, rfl⟩

/-- A load of any bytes ends with a writer that calls could have built, under the options read from
the metadata, or with an error of a load. It does not panic. -/
theorem load_safe {bytes : List UInt8}
    (hepoch : ∀ reader, Maxminddb.fromSource bytes = .ok reader →
      reader.metadata.buildEpoch.toNat < 2 ^ 63)
    (hroom : ∀ reader items, Maxminddb.fromSource bytes = .ok reader → reader.networks = .ok items →
      items.length * 128 + 2 ^ 12 < 2 ^ 32) :
    (∃ w reader size, load bytes = .ok w ∧ w.Reachable ∧ Maxminddb.fromSource bytes = .ok reader ∧
      recordSizeFrom reader.metadata.recordSize = .ok size ∧ w.toWriterBuilder =
        { databaseType := reader.metadata.databaseType
          languages := reader.metadata.languages
          description := reader.metadata.description.foldl (fun m e => mapInsert e.1 e.2 m) []
          ipVersion := if reader.metadata.ipVersion = 4 then .v4 else .v6
          recordSize := some size
          buildEpoch := some (reader.metadata.buildEpoch.toNat * 10 ^ 9) }) ∨
      FailsToLoad (load bytes) := by
  rcases loadErr_cases (Maxminddb.fromSource bytes) with ⟨reader, hreader, hsrc⟩ | hfail
  swap
  · exact Or.inr (hfail.bind _)
  have hsecs : epochFrom reader.metadata.buildEpoch =
      .ok (reader.metadata.buildEpoch.toNat * 10 ^ 9) := if_pos (hepoch reader hreader)
  rcases recordSizeFrom_cases reader.metadata.recordSize with ⟨size, hsize⟩ | hfail
  swap
  · unfold load
    rw [hsrc]
    simp only [bind, Except.bind, hsecs]
    exact Or.inr (hfail.bind _)
  obtain ⟨w₀, l, r, hb, hopt, hinv, -⟩ := build_inv
    { databaseType := reader.metadata.databaseType
      languages := reader.metadata.languages
      description := reader.metadata.description
      ipVersion := if reader.metadata.ipVersion = 4 then .v4 else .v6
      recordSize := some size
      buildEpoch := some (reader.metadata.buildEpoch.toNat * 10 ^ 9) }
  have hload : load bytes = loadErr reader.networks >>= fun items => loadItems items w₀ := by
    unfold load
    simp only [bind, Except.bind, hsrc, hsecs, hsize, hb]
  rw [hload]
  rcases loadErr_cases reader.networks with ⟨items, hitems, hnets⟩ | hfail
  swap
  · exact Or.inr (hfail.bind _)
  rw [hnets]
  obtain ⟨hnodes, hpool, -⟩ := build_length hb
  have hroom := hroom reader items hreader hitems
  have hdepth : items.length * w₀.ipVersion.treeDepth ≤ items.length * 128 :=
    Nat.mul_le_mul_left _ (by cases w₀.ipVersion <;> decide)
  rcases loadItems_cases items hinv (Reachable.of_build hb) (by rw [hopt]) (by omega) (by omega) with
    ⟨w, hw, hreach, hopt'⟩ | hfail
  · rw [hopt, build_description hb] at hopt'
    exact Or.inl ⟨w, reader, size, hw, hreach, hreader, hsize, hopt'⟩
  · exact Or.inr hfail

omit [Ipnet] [Maxminddb] in
/-- A file with aliases is loaded, and the writer can be filled further. -/
theorem load_safe_city :
    let _ := Ipnet.std
    ∃ (_ : Maxminddb) (w w' : Writer) (file : List UInt8), w.ipVersion = .v6 ∧
      w.toBytes 0 = .ok file ∧ load file = .ok w' ∧ w'.Reachable ∧ w'.buildEpoch = some 0 := by
  intro _
  obtain ⟨w, file, database, metadata, layout, reader, nets, hr, hopt, hnodes, hfile, hlays, hread,
    hnets, htwo, hno, hepoch, hitems, hreads⟩ := reads_city
  let M := Maxminddb.single file reader
  have hfrom := Maxminddb.fromSource_single file reader
  have hsame : ∀ reader', M.fromSource file = .ok reader' → reader' = reader := fun reader' h =>
    Except.ok.inj (h.symm.trans hfrom)
  have hver : w.ipVersion = .v6 := by rw [hopt]
  rcases load_safe (fun reader' h => by rw [hsame reader' h, hepoch]; decide)
      (fun reader' items h hi => by
        rw [hsame reader' h] at hi
        rw [hitems items hi]
        decide) with
    ⟨w', reader', size, hload, hreach, hsrc, -, hopt'⟩ | ⟨e, -, herr⟩
  · refine ⟨M, w, w', file, hver, hfile, hload, hreach, ?_⟩
    rw [hopt', hsame reader' hsrc, hepoch]
    rfl
  · rcases hr.load_cases hlays hread hfrom hreads hnets (by rw [htwo, hver]; decide) with
      ⟨w', size, hload, -⟩ | ⟨net, n, hn, -, ⟨-, a, ha, hpre⟩, -⟩
    · rw [hload] at herr
      cases herr
    · exact absurd hpre (hno n hn a ha)

end Writer

end MmdbWriter
