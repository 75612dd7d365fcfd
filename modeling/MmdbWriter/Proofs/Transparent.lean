import MmdbWriter.Proofs.Fields
import MmdbWriter.Serde

/-!
# Values through serde

What `Value::serialize` emits is projected to the value itself, and read back to it by the visitor:
the three tables agree on every kind of value.
-/

namespace MmdbWriter

theorem pairwise_append_singleton {k : String} {v : Value} {acc m : List (String × Value)}
    (h : ((acc ++ (k, v) :: m).map Prod.fst).Pairwise (· < ·)) :
    (∀ a ∈ acc.map Prod.fst, a < k) ∧
      (((acc ++ [(k, v)]) ++ m).map Prod.fst).Pairwise (· < ·) := by
  refine ⟨fun a ha => ?_, by simpa using h⟩
  rw [List.map_append, List.pairwise_append] at h
  exact h.2.2 a ha k (by simp)

namespace ValueSerializer

open Value

mutual

theorem serialize_serialize : ∀ {v : Value}, v.WF →
    ValueSerializer.serialize v.serialize = .ok (some v)
  | .string _, _ => rfl
  | .double _, _ => rfl
  | .bytes _, _ => rfl
  | .u16 _, _ => rfl
  | .u32 _, _ => rfl
  | .i32 _, _ => rfl
  | .u64 _, _ => rfl
  | .u128 _, _ => rfl
  | .bool _, _ => rfl
  | .float _, _ => rfl
  | .array items, h => by
    rw [Value.serialize, ValueSerializer.serialize, SeqSer.new, serializeElements_serialize h []]
    rfl
  | .map m, h => by
    rw [Value.serialize, ValueSerializer.serialize, MapSer.new,
      serializeEntries_serialize h.2 [] (by simpa using h.1)]
    rfl

theorem serializeElements_serialize : ∀ {items : List Value}, WFArray items → ∀ acc,
    serializeElements ⟨acc⟩ (serializeArray items) = .ok ⟨acc ++ items⟩
  | [], _, acc => by rw [List.append_nil]; rfl
  | v :: items, h, acc => by
    have ih := serializeElements_serialize h.2 (acc ++ [v])
    rw [List.append_assoc] at ih
    rw [serializeArray, serializeElements, serialize_serialize h.1]
    exact ih

theorem serializeEntries_serialize : ∀ {m : List (String × Value)}, WFMap m → ∀ acc,
    ((acc ++ m).map Prod.fst).Pairwise (· < ·) →
    serializeEntries ⟨acc, none⟩ (serializeMap m) = .ok ⟨acc ++ m, none⟩
  | [], _, acc, _ => by rw [List.append_nil]; rfl
  | (k, v) :: m, h, acc, hlt => by
    obtain ⟨hk, hlt'⟩ := pairwise_append_singleton hlt
    have ih := serializeEntries_serialize h.2 (acc ++ [(k, v)]) hlt'
    rw [List.append_assoc, ← mapInsert_last k v acc hk] at ih
    rw [serializeMap, serializeEntries, serialize_serialize h.1]
    exact ih

end

theorem toValue_serialize {v : Value} (h : v.WF) : toValue v.serialize = .ok v := by
  rw [toValue, serialize_serialize h]
  rfl

end ValueSerializer

namespace ValueVisitor

open Value

mutual

theorem replay_serialize : ∀ {v : Value}, v.WF → replay v.serialize = .ok v
  | .string _, _ => rfl
  | .double _, _ => rfl
  | .bytes _, _ => rfl
  | .u16 _, _ => rfl
  | .u32 _, _ => rfl
  | .i32 _, _ => rfl
  | .u64 _, _ => rfl
  | .u128 _, _ => rfl
  | .bool _, _ => rfl
  | .float _, _ => rfl
  | .array items, h => by
    rw [Value.serialize, replay]
    exact visitSeq_serialize h []
  | .map m, h => by
    rw [Value.serialize, replay]
    exact visitMap_serialize h.2 [] (by simpa using h.1)

theorem visitSeq_serialize : ∀ {items : List Value}, WFArray items → ∀ acc,
    visitSeq acc (serializeArray items) = .ok (.array (acc ++ items))
  | [], _, acc => by rw [List.append_nil]; rfl
  | v :: items, h, acc => by
    have ih := visitSeq_serialize h.2 (acc ++ [v])
    rw [List.append_assoc] at ih
    rw [serializeArray, visitSeq, replay_serialize h.1]
    exact ih

theorem visitMap_serialize : ∀ {m : List (String × Value)}, WFMap m → ∀ acc,
    ((acc ++ m).map Prod.fst).Pairwise (· < ·) →
    visitMap acc (serializeMap m) = .ok (.map (acc ++ m))
  | [], _, acc, _ => by rw [List.append_nil]; rfl
  | (k, v) :: m, h, acc, hlt => by
    obtain ⟨hk, hlt'⟩ := pairwise_append_singleton hlt
    have ih := visitMap_serialize h.2 (acc ++ [(k, v)]) hlt'
    rw [List.append_assoc, ← mapInsert_last k v acc hk] at ih
    rw [serializeMap, visitMap, replay_serialize h.1]
    exact ih

end

end ValueVisitor

/-- A value goes through serde unchanged: projected, inserted or read back it is the same. -/
theorem Value.serialize_transparent [Ipnet] (v : Value) (h : v.WF) :
    ValueSerializer.toValue v.serialize = .ok v ∧
    (∀ (net : IpNet) (w : Writer), Writer.insert net v.serialize w = Writer.insertValue net v w) ∧
    ValueVisitor.replay v.serialize = .ok v := by
  refine ⟨ValueSerializer.toValue_serialize h, fun net w => ?_, ValueVisitor.replay_serialize h⟩
  rw [Writer.insert, ValueSerializer.toValue_serialize h]
  rfl

theorem Value.serialize_transparent_city :
    ValueSerializer.toValue (.map [(.str "city", .map [(.str "id", .u32 7)]),
      (.str "spans", .seq [.u16 1, .bytes [2], .i32 (-3)])]) =
      .ok (.map [("city", .map [("id", .u32 7)]),
        ("spans", .array [.u16 1, .bytes [2], .i32 (-3)])]) := by
  have hwf : (Value.map [("city", .map [("id", .u32 7)]),
      ("spans", .array [.u16 1, .bytes [2], .i32 (-3)])]).WF :=
    ⟨by decide, ⟨⟨by decide, trivial, trivial⟩, ⟨trivial, trivial, trivial, trivial⟩, trivial⟩⟩
  let _ := Ipnet.std
  exact (Value.serialize_transparent _ hwf).1

end MmdbWriter
