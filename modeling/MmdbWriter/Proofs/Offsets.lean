import MmdbWriter.Proofs.Compaction
import MmdbWriter.Proofs.Pushes

/-!
# The offsets of the values

`build` pushes the values the records of the compacted tree refer to, so that each has an offset, at
which it lies in the data section.
-/

namespace MmdbWriter

open BitTrie (leaf node)

namespace Tree

theorem mem_foldl_collectId {id : ValueId} : ∀ {rs : List Record} {ids : List ValueId},
    id ∈ rs.foldl collectId ids ↔ id ∈ ids ∨ .data id ∈ rs := by
  intro rs
  induction rs with
  | nil => simp
  | cons rec rs ih =>
    intro ids
    rw [List.foldl_cons, ih, List.mem_cons]
    cases rec with
    | data id' =>
      simp only [collectId, Record.data.injEq]
      split_ifs with hin
      · constructor
        · exact fun h => h.imp_right Or.inr
        · rintro (h | rfl | h)
          · exact Or.inl h
          · exact Or.inl hin
          · exact Or.inr h
      · rw [List.mem_append, List.mem_singleton, or_assoc]
    | noData | node i | fixedNode i | aliased i | reserved => simp [collectId]

theorem mem_reachableDataIds {t : Tree} {id : ValueId} :
    id ∈ t.reachableDataIds ↔ .data id ∈ t.records := by
  rw [reachableDataIds_eq, mem_foldl_collectId]
  simp

/-- Some record has the label a string leads to. -/
theorem leafRecord_mem {t : Tree} {v4 : ℕ} : ∀ {u : BitTrie (Leaf ValueId)} {rec : Record}
    {fp : List ℕ}, Stores t.nodes v4 rec u fp → ((∃ a, u = leaf a) → rec ∈ t.records) → ∀ p,
    leafRecord v4 (u.eval p) ∈ t.records
  | leaf a, rec, _, h, hrec, p => by
    rw [BitTrie.eval_leaf, ← h.1]
    exact hrec ⟨a, rfl⟩
  | node pin l r, _, _, h, _, p => by
    obtain ⟨i, n, fl, fr, -, -, hn, hl, hr, -⟩ := h
    have hleft := leafRecord_mem hl fun _ => mem_records.mpr ⟨i, n, hn, Or.inl rfl⟩
    have hright := leafRecord_mem hr fun _ => mem_records.mpr ⟨i, n, hn, Or.inr rfl⟩
    rcases p with _ | ⟨_ | _, p⟩
    · simpa using hleft []
    · simpa using hleft p
    · simpa using hright p

end Tree

namespace Writer

/-- The pushed values and their offsets. -/
theorem pushIds_spec {pool : ValuePool} : ∀ {ids : List ValueId} {d d' : DataSection}
    {m m' : List (ValueId × ℕ)}, pushIds pool ids d m = .ok (d', m') →
    ∃ values, List.Forall₂ (fun id v => pool.values[id]? = some v) ids values ∧
      d' = (DataSection.pushAll values d).1 ∧
      m' = (ids.zip (DataSection.pushAll values d).2).reverse ++ m
  | [], d, d', m, m', h => by
    simp only [pushIds, Except.ok.injEq, Prod.mk.injEq] at h
    exact ⟨[], .nil, h.1.symm, h.2.symm⟩
  | id :: ids, d, d', m, m', h => by
    unfold pushIds ValuePool.get at h
    rcases hv : pool.values[id]? with _ | v <;>
      rw [hv] at h <;> simp only [bind, Except.bind, reduceCtorEq] at h
    obtain ⟨values, hall, hd, hm⟩ := pushIds_spec h
    refine ⟨v :: values, .cons hv hall, hd, ?_⟩
    rw [hm, DataSection.pushAll, List.zip_cons_cons, List.reverse_cons, List.append_assoc]
    rfl

theorem mem_of_lookup {α β : Type} [BEq α] [LawfulBEq α] {a : α} {b : β} : ∀ {l : List (α × β)},
    l.lookup a = some b → (a, b) ∈ l
  | (a', b') :: l, h => by
    rw [List.lookup_cons] at h
    split at h
    · rename_i heq
      rw [Option.some.injEq] at h
      rw [beq_iff_eq.mp heq, h]
      exact List.mem_cons_self
    · exact List.mem_cons_of_mem _ (mem_of_lookup h)

theorem lookup_ne_none {α β : Type} [BEq α] [LawfulBEq α] {a : α} {b : β} {l : List (α × β)}
    (h : (a, b) ∈ l) : l.lookup a ≠ none := by
  intro hnone
  have := List.lookup_eq_none_iff.mp hnone (a, b) h
  simp at this

/-- The ids pushed onto an empty section have the offsets of their values. -/
theorem lookup_pushIds {pool : ValuePool} {ids : List ValueId} {d : DataSection}
    {m : List (ValueId × ℕ)} (h : pushIds pool ids DataSection.new [] = .ok (d, m)) :
    ∃ values, List.Forall₂ (fun id v => pool.values[id]? = some v) ids values ∧
      d = DataSection.ofValues values ∧ ∀ id ∈ ids, ∃ v offset, m.lookup id = some offset ∧
        pool.values[id]? = some v ∧ (v, offset) ∈ values.zip (DataSection.offsets values) := by
  obtain ⟨values, hall, rfl, rfl⟩ := pushIds_spec h
  have hzip := DataSection.forall₂_zip_right hall
    (DataSection.length_pushAll values DataSection.new)
  refine ⟨values, hall, rfl, fun id hid => ?_⟩
  obtain ⟨offset, hmem, -⟩ := DataSection.exists_mem_zip hzip hid
  rw [← List.mem_reverse, ← List.append_nil (List.reverse _)] at hmem
  obtain ⟨offset', hoff⟩ := Option.ne_none_iff_exists'.mp (lookup_ne_none hmem)
  have hmem' := mem_of_lookup hoff
  rw [List.append_nil, List.mem_reverse] at hmem'
  obtain ⟨v, hv, hvo⟩ := DataSection.forall₂_of_mem_zip hzip hmem'
  exact ⟨v, offset', hoff, hv, hvo⟩

end Writer

end MmdbWriter
