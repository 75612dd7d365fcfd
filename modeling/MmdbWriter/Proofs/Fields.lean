import MmdbWriter.Metadata

/-!
# The metadata map

Entries inserted in the order of their keys stay in that order, and the source names the fields of
the metadata in the order of their keys.
-/

namespace MmdbWriter

theorem mapInsert_last {V : Type} (k : String) (v : V) : ∀ m : List (String × V),
    (∀ a ∈ m.map Prod.fst, a < k) → mapInsert k v m = m ++ [(k, v)]
  | [], _ => rfl
  | (k', v') :: m, h => by
    have hlt : k' < k := h k' (by simp)
    have ih := mapInsert_last k v m fun a ha => h a (by simp [ha])
    rw [mapInsert, if_neg hlt.asymm, if_neg hlt.ne', ih]
    rfl

theorem foldl_mapInsert {V : Type} : ∀ l m : List (String × V),
    ((m ++ l).map Prod.fst).Pairwise (· < ·) →
    l.foldl (fun map e => mapInsert e.1 e.2 map) m = m ++ l
  | [], m, _ => (List.append_nil m).symm
  | (k, v) :: l, m, h => by
    have hk : ∀ a ∈ m.map Prod.fst, a < k := by
      intro a ha
      rw [List.map_append, List.pairwise_append] at h
      exact h.2.2 a ha k List.mem_cons_self
    rw [List.foldl_cons, mapInsert_last k v m hk, foldl_mapInsert l _ (by simpa using h),
      List.append_assoc]
    rfl

theorem mapInsert_map {V W : Type} (f : V → W) (k : String) (v : V) : ∀ m : List (String × V),
    mapInsert k (f v) (m.map fun e => (e.1, f e.2)) =
      (mapInsert k v m).map fun e => (e.1, f e.2)
  | [] => rfl
  | (k', v') :: m => by
    have ih := mapInsert_map f k v m
    simp only [List.map_cons, mapInsert]
    split_ifs
    · rfl
    · rfl
    · rw [ih]
      rfl

theorem foldl_mapInsert_map {V W : Type} (f : V → W) : ∀ l m : List (String × V),
    (l.map fun e => (e.1, f e.2)).foldl (fun map e => mapInsert e.1 e.2 map)
        (m.map fun e => (e.1, f e.2)) =
      (l.foldl (fun map e => mapInsert e.1 e.2 map) m).map fun e => (e.1, f e.2)
  | [], _ => rfl
  | (k, v) :: l, m => by
    have hstep := mapInsert_map f k v m
    rw [List.map_cons, List.foldl_cons, List.foldl_cons, ← foldl_mapInsert_map f l]
    simp only [hstep]

namespace Metadata

/-- The descriptions as a map. -/
def descriptions (m : Metadata) : List (String × String) :=
  m.description.foldl (fun map e => mapInsert e.1 e.2 map) []

theorem toMap_eq (m : Metadata) : m.toMap = .map
    [("binary_format_major_version", .u16 2),
      ("binary_format_minor_version", .u16 0),
      ("build_epoch", .u64 m.buildEpoch),
      ("database_type", .string m.databaseType),
      ("description", .map (m.descriptions.map fun e => (e.1, .string e.2))),
      ("ip_version", .u16 m.ipVersion.metadata),
      ("languages", .array (m.languages.map .string)),
      ("node_count", .u32 (BitVec.ofNat 32 (min m.nodeCount u32Max))),
      ("record_size", .u16 m.recordSize.asMetadata)] := by
  unfold toMap
  rw [foldl_mapInsert m.fields []]
  · unfold fields descriptions
    rw [List.nil_append, ← foldl_mapInsert_map Value.string m.description []]
    rfl
  · show List.Pairwise (· < ·) ["binary_format_major_version", "binary_format_minor_version",
      "build_epoch", "database_type", "description", "ip_version", "languages", "node_count",
      "record_size"]
    decide

end Metadata

end MmdbWriter
