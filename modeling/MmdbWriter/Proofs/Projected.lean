import MmdbWriter.Projection
import MmdbWriter.Proofs.Merge

/-!
# The serializer projects

A builder takes what is serialized into it in the order of the calls, so that it ends with the
projection of what it was given; and it passes every error on, so that a value is serialized if all of
it can be written.
-/

namespace MmdbWriter

open LastWins (lastWins lastValue Ascending)

theorem except_bind_eq_ok {ε α β : Type} {x : Except ε α} {f : α → Except ε β} {b : β} :
    (x >>= f) = .ok b ↔ ∃ a, x = .ok a ∧ f a = .ok b := by
  cases x with
  | error e => simp [bind, Except.bind]
  | ok a => simp [bind, Except.bind]

section Entries

variable {V : Type}

theorem mapGet_eq_lookup (k : String) : ∀ m : List (String × V), mapGet k m = m.lookup k
  | [] => rfl
  | (k', v) :: m => by
    rw [mapGet, List.lookup_cons, mapGet_eq_lookup k m]
    by_cases h : k = k'
    · simp [h]
    · simp [h, beq_eq_false_iff_ne.mpr h]

theorem mem_keys_mapInsert {k a : String} {v : V} : ∀ {m : List (String × V)},
    a ∈ (mapInsert k v m).map Prod.fst → a = k ∨ a ∈ m.map Prod.fst
  | [], h => by simpa [mapInsert] using h
  | (k', v') :: m, h => by
    unfold mapInsert at h
    split_ifs at h with hlt heq
    · simpa using h
    · subst heq
      simp only [List.map_cons, List.mem_cons] at h ⊢
      exact h.imp_right Or.inr
    · simp only [List.map_cons, List.mem_cons] at h ⊢
      rcases h with h | h
      · exact Or.inr (Or.inl h)
      · exact (mem_keys_mapInsert h).imp_right Or.inr

/-- An insert keeps the keys ascending. -/
theorem ascending_mapInsert (k : String) (v : V) : ∀ {m : List (String × V)}, Ascending m →
    Ascending (mapInsert k v m)
  | [], _ => List.pairwise_singleton _ _
  | (k', v') :: m, h => by
    obtain ⟨hlt, hm⟩ := List.pairwise_cons.mp h
    unfold mapInsert
    split_ifs with hk heq
    · refine List.pairwise_cons.mpr ⟨fun e he => ?_, h⟩
      rcases List.mem_cons.mp he with rfl | he
      · exact hk
      · exact hk.trans (hlt e he)
    · subst heq
      exact List.pairwise_cons.mpr ⟨hlt, hm⟩
    · have hgt : k' < k := lt_of_le_of_ne (not_lt.mp hk) (Ne.symm heq)
      refine List.pairwise_cons.mpr ⟨fun e he => ?_, ascending_mapInsert k v hm⟩
      rcases mem_keys_mapInsert (List.mem_map_of_mem he) with hke | he
      · exact hke ▸ hgt
      · obtain ⟨e', he', hfst⟩ := List.mem_map.mp he
        exact hfst ▸ hlt e' he'

/-- Entries inserted one after the other leave each key with its last value. -/
theorem foldl_mapInsert_eq_lastWins (l : List (String × V)) :
    l.foldl (fun m e => mapInsert e.1 e.2 m) [] = lastWins l := by
  have hspec : Ascending (l.foldl (fun m e => mapInsert e.1 e.2 m) []) ∧
      ∀ k, mapGet k (l.foldl (fun m e => mapInsert e.1 e.2 m) []) = lastValue k l := by
    induction l using List.reverseRecOn with
    | nil => exact ⟨List.Pairwise.nil, fun _ => rfl⟩
    | append_singleton l e ih =>
      obtain ⟨k', v⟩ := e
      rw [List.foldl_append, List.foldl_cons, List.foldl_nil]
      refine ⟨ascending_mapInsert k' v ih.1, fun k => ?_⟩
      rw [mapGet_mapInsert, LastWins.lastValue_append_singleton, ih.2]
  refine hspec.1.ext (LastWins.ascending_lastWins l) fun k => ?_
  rw [LastWins.lookup_lastWins, ← hspec.2, mapGet_eq_lookup]

end Entries

namespace Data

theorem isText_iff (d : Data) : d.isText = true ↔ ∃ k, d.project = .some (.string k) := by
  fun_induction isText d with
  | case1 | case2 | case3 => simp [project]
  | case4 value ih => rw [project, ih]
  | case5 value ih => rw [project, ih]
  | case6 d => cases d <;> simp_all [project]

/-- A null projects to nothing, and so does nothing else that can be written. -/
theorem project_eq_none (d : Data) (h : d.Representable) : d.project = .none ↔ d.isNull = true := by
  fun_induction isNull d with
  | case1 | case2 | case3 => simp [project]
  | case4 value ih => rw [project, ih ((representable_iff.mp h).2 value (List.mem_singleton_self _))]
  | case5 value ih => rw [project, ih ((representable_iff.mp h).2 value (List.mem_singleton_self _))]
  | case6 d =>
    have hu := h d .refl
    cases d <;> simp_all [project, Unrepresentable]

theorem Representable.of_within {x d : Data} (h : d.Representable) (hx : x.Within d) :
    x.Representable := by
  have htrans : ∀ {y : Data}, y.Within x → y.Within d := by
    intro y hy
    induction hx with
    | refl => exact hy
    | part hp _ ih => exact .part hp (ih ((representable_iff.mp h).2 _ hp))
  exact fun y hy => h y (htrans hy)

theorem representable_of_parts {d : Data} (h : ¬ d.Unrepresentable) :
    d.Representable ↔ ∀ p ∈ d.parts, p.Representable := by
  rw [representable_iff, and_iff_right h]

theorem representable_map {entries : List (Data × Data)} : (map entries).Representable ↔
    ∀ e ∈ entries, e.1.Representable ∧ e.1.isText = true ∧ e.2.Representable := by
  rw [representable_iff]
  simp only [Unrepresentable, parts, List.mem_flatMap, List.mem_cons, List.not_mem_nil, or_false]
  constructor
  · rintro ⟨hkeys, hparts⟩ e he
    refine ⟨hparts _ ⟨e, he, Or.inl rfl⟩, ?_, hparts _ ⟨e, he, Or.inr rfl⟩⟩
    by_contra hno
    exact hkeys ⟨e, he, Bool.eq_false_iff.mpr hno⟩
  · intro h
    refine ⟨?_, ?_⟩
    · rintro ⟨e, he, hno⟩
      rw [(h e he).2.1] at hno
      cases hno
    · rintro p ⟨e, he, rfl | rfl⟩
      · exact (h e he).1
      · exact (h e he).2.2

end Data

namespace ValueSerializer

open Data (Representable project projectAll projectEntries projectFields)

/-- Entries put into a map one after the other. -/
def insertAll (l m : List (String × Value)) : List (String × Value) :=
  l.foldl (fun m e => mapInsert e.1 e.2 m) m

theorem insertAll_append (l l' m : List (String × Value)) :
    insertAll (l ++ l') m = insertAll l' (insertAll l m) := List.foldl_append

theorem serializeElement_eq (acc : List Value) (out : Out) :
    (SeqSer.mk acc).serializeElement out = ⟨acc ++ out.toList⟩ := by
  cases out <;> simp [SeqSer.serializeElement]

theorem serializeField_eq (variant : String) (acc : List Value) (out : Out) :
    (TupleVariantSer.mk variant acc).serializeField out = ⟨variant, acc ++ out.toList⟩ := by
  cases out <;> simp [TupleVariantSer.serializeField]

theorem put_eq (acc : List (String × Value)) (key : String) (out : Out) :
    (MapSer.mk acc none).put key out =
      ⟨insertAll (out.toList.map fun v => (key, v)) acc, none⟩ := by
  cases out <;> rfl

theorem serializeVariantField_eq (variant : String) (acc : List (String × Value)) (key : String)
    (out : Out) : (StructVariantSer.mk variant acc).serializeField key out =
      ⟨variant, insertAll (out.toList.map fun v => (key, v)) acc⟩ := by
  cases out <;> rfl

theorem serializeKey_eq_ok {s s' : MapSer} {k : Out} : s.serializeKey k = .ok s' ↔
    ∃ t, k = some (.string t) ∧ s' = { s with pendingKey := some t } := by
  rcases k with _ | v
  · simp [MapSer.serializeKey]
  · cases v <;> simp [MapSer.serializeKey, eq_comm]

theorem serialize_eq_ok_of_no_parts {d : Data} {out : Out} (hs : serialize d = .ok d.project)
    (hu : ¬ d.Unrepresentable) (hparts : d.parts = []) :
    serialize d = .ok out ↔ d.Representable ∧ out = d.project := by
  rw [Data.representable_of_parts hu, hparts, hs]
  simp [eq_comm]

theorem serialize_eq_ok_of_error {d : Data} {out : Out} {e : Error} (hs : serialize d = .error e)
    (hu : d.Unrepresentable) : serialize d = .ok out ↔ d.Representable ∧ out = d.project := by
  rw [hs]
  constructor
  · intro h
    cases h
  · intro h
    exact absurd hu (h.1 d .refl)

theorem finish_eq_ok {S : Type} {x : Except Error S} {P : Prop} {s₀ : S}
    (hx : ∀ s, x = .ok s ↔ P ∧ s = s₀) (finish : S → Out) {out : Out} :
    (x >>= fun s => .ok (finish s)) = .ok out ↔ P ∧ out = finish s₀ := by
  rw [except_bind_eq_ok]
  constructor
  · rintro ⟨s, hs, hout⟩
    obtain ⟨hP, rfl⟩ := (hx s).mp hs
    exact ⟨hP, (Except.ok.inj hout).symm⟩
  · rintro ⟨hP, rfl⟩
    exact ⟨s₀, (hx s₀).mpr ⟨hP, rfl⟩, rfl⟩

mutual

/-- A value is serialized if all of it can be written, and then to its projection. -/
theorem serialize_eq_ok : ∀ (d : Data) (out : Out),
    serialize d = .ok out ↔ d.Representable ∧ out = d.project
  | .bool _, _ => serialize_eq_ok_of_no_parts rfl id rfl
  | .i8 _, _ => serialize_eq_ok_of_no_parts rfl id rfl
  | .i16 _, _ => serialize_eq_ok_of_no_parts rfl id rfl
  | .i32 _, _ => serialize_eq_ok_of_no_parts rfl id rfl
  | .i64 v, _ => serialize_eq_ok_of_error rfl trivial
  | .i128 v, _ => serialize_eq_ok_of_error rfl trivial
  | .u8 _, _ => serialize_eq_ok_of_no_parts rfl id rfl
  | .u16 _, _ => serialize_eq_ok_of_no_parts rfl id rfl
  | .u32 _, _ => serialize_eq_ok_of_no_parts rfl id rfl
  | .u64 _, _ => serialize_eq_ok_of_no_parts rfl id rfl
  | .u128 _, _ => serialize_eq_ok_of_no_parts rfl id rfl
  | .f32 _, _ => serialize_eq_ok_of_no_parts rfl id rfl
  | .f64 _, _ => serialize_eq_ok_of_no_parts rfl id rfl
  | .char _, _ => serialize_eq_ok_of_no_parts rfl id rfl
  | .str _, _ => serialize_eq_ok_of_no_parts rfl id rfl
  | .bytes _, _ => serialize_eq_ok_of_no_parts rfl id rfl
  | .none, _ => serialize_eq_ok_of_no_parts rfl id rfl
  | .unit, _ => serialize_eq_ok_of_no_parts rfl id rfl
  | .unitStruct, _ => serialize_eq_ok_of_no_parts rfl id rfl
  | .unitVariant _, _ => serialize_eq_ok_of_no_parts rfl id rfl
  | .some value, out => by
    rw [serialize, project, Data.representable_of_parts id, serialize_eq_ok value]
    simp [Data.parts]
  | .newtypeStruct value, out => by
    rw [serialize, project, Data.representable_of_parts id, serialize_eq_ok value]
    simp [Data.parts]
  | .newtypeVariant variant value, out => by
    rw [serialize, project, Data.representable_of_parts id, except_bind_eq_ok]
    simp only [serialize_eq_ok value, Data.parts, List.mem_singleton, forall_eq]
    constructor
    · rintro ⟨_, ⟨hrep, rfl⟩, h⟩
      refine ⟨hrep, ?_⟩
      cases hv : value.project <;> rw [hv] at h <;> simpa [mapInsert, eq_comm] using h
    · rintro ⟨hrep, rfl⟩
      refine ⟨_, ⟨hrep, rfl⟩, ?_⟩
      cases value.project <;> rfl
  | .seq items, out => by
    rw [Data.representable_of_parts id]
    exact finish_eq_ok (serializeElements_eq_ok items []) SeqSer.finish
  | .tuple items, out => by
    rw [Data.representable_of_parts id]
    exact finish_eq_ok (serializeElements_eq_ok items []) SeqSer.finish
  | .tupleStruct fields, out => by
    rw [Data.representable_of_parts id]
    exact finish_eq_ok (serializeElements_eq_ok fields []) SeqSer.finish
  | .tupleVariant variant fields, out => by
    rw [Data.representable_of_parts id]
    exact finish_eq_ok (serializeTupleFields_eq_ok fields variant []) TupleVariantSer.finish
  | .map entries, out => by
    rw [Data.representable_map, project, ← foldl_mapInsert_eq_lastWins]
    exact finish_eq_ok (serializeEntries_eq_ok entries []) MapSer.finish
  | .struct fields, out => by
    rw [Data.representable_of_parts id, Data.parts, List.forall_mem_map, project,
      ← foldl_mapInsert_eq_lastWins]
    exact finish_eq_ok (serializeFields_eq_ok fields []) MapSer.finish
  | .structVariant variant fields, out => by
    rw [Data.representable_of_parts id, Data.parts, List.forall_mem_map, project,
      ← foldl_mapInsert_eq_lastWins]
    exact finish_eq_ok (serializeVariantFields_eq_ok fields variant []) StructVariantSer.finish

theorem serializeElements_eq_ok : ∀ (items : List Data) (acc : List Value) (s : SeqSer),
    serializeElements ⟨acc⟩ items = .ok s ↔
      (∀ d ∈ items, d.Representable) ∧ s = ⟨acc ++ projectAll items⟩
  | [], acc, s => by simp [serializeElements, projectAll, eq_comm]
  | d :: items, acc, s => by
    rw [serializeElements, except_bind_eq_ok, projectAll, ← List.append_assoc,
      List.forall_mem_cons, and_assoc, ← serializeElements_eq_ok items]
    simp only [serialize_eq_ok d, serializeElement_eq]
    constructor
    · rintro ⟨_, ⟨hd, rfl⟩, h⟩
      exact ⟨hd, h⟩
    · rintro ⟨hd, h⟩
      exact ⟨_, ⟨hd, rfl⟩, h⟩

theorem serializeTupleFields_eq_ok : ∀ (fields : List Data) (variant : String) (acc : List Value)
    (s : TupleVariantSer), serializeTupleFields ⟨variant, acc⟩ fields = .ok s ↔
      (∀ d ∈ fields, d.Representable) ∧ s = ⟨variant, acc ++ projectAll fields⟩
  | [], variant, acc, s => by simp [serializeTupleFields, projectAll, eq_comm]
  | d :: fields, variant, acc, s => by
    rw [serializeTupleFields, except_bind_eq_ok, projectAll, ← List.append_assoc,
      List.forall_mem_cons, and_assoc, ← serializeTupleFields_eq_ok fields]
    simp only [serialize_eq_ok d, serializeField_eq]
    constructor
    · rintro ⟨_, ⟨hd, rfl⟩, h⟩
      exact ⟨hd, h⟩
    · rintro ⟨hd, h⟩
      exact ⟨_, ⟨hd, rfl⟩, h⟩

theorem serializeEntries_eq_ok : ∀ (entries : List (Data × Data)) (acc : List (String × Value))
    (s : MapSer), serializeEntries ⟨acc, none⟩ entries = .ok s ↔
      (∀ e ∈ entries, e.1.Representable ∧ e.1.isText = true ∧ e.2.Representable) ∧
        s = ⟨insertAll (projectEntries entries) acc, none⟩
  | [], acc, s => by
    rw [serializeEntries, Except.ok.injEq]
    exact ⟨fun h => ⟨by simp, h.symm⟩, fun h => h.2.symm⟩
  | (key, value) :: entries, acc, s => by
    have hentry : ∀ t, key.project = some (.string t) →
        projectEntries ((key, value) :: entries) =
          (value.project.toList.map fun v => (t, v)) ++ projectEntries entries := by
      intro t ht
      rw [projectEntries, ht]
      cases value.project <;> rfl
    rw [serializeEntries, except_bind_eq_ok, List.forall_mem_cons, Data.isText_iff]
    constructor
    · rintro ⟨k, hk, h⟩
      obtain ⟨hkey, rfl⟩ := (serialize_eq_ok key k).mp hk
      obtain ⟨s₁, hs₁, h⟩ := except_bind_eq_ok.mp h
      obtain ⟨t, ht, rfl⟩ := serializeKey_eq_ok.mp hs₁
      obtain ⟨⟨t', s₂⟩, htake, h⟩ := except_bind_eq_ok.mp h
      obtain ⟨rfl, rfl⟩ : t = t' ∧ MapSer.mk acc none = s₂ := by
        simpa [MapSer.takeKey] using htake
      obtain ⟨out, hout, h⟩ := except_bind_eq_ok.mp h
      obtain ⟨hvalue, rfl⟩ := (serialize_eq_ok value out).mp hout
      rw [put_eq] at h
      obtain ⟨hall, rfl⟩ := (serializeEntries_eq_ok entries _ s).mp h
      rw [hentry t ht, insertAll_append]
      exact ⟨⟨⟨hkey, ⟨t, ht⟩, hvalue⟩, hall⟩, rfl⟩
    · rintro ⟨⟨⟨hkey, ⟨t, ht⟩, hvalue⟩, hall⟩, rfl⟩
      refine ⟨_, (serialize_eq_ok key _).mpr ⟨hkey, rfl⟩, ?_⟩
      refine except_bind_eq_ok.mpr ⟨_, serializeKey_eq_ok.mpr ⟨t, ht, rfl⟩, ?_⟩
      refine except_bind_eq_ok.mpr ⟨(t, ⟨acc, none⟩), rfl, ?_⟩
      refine except_bind_eq_ok.mpr ⟨_, (serialize_eq_ok value _).mpr ⟨hvalue, rfl⟩, ?_⟩
      rw [put_eq, hentry t ht, insertAll_append]
      exact (serializeEntries_eq_ok entries _ _).mpr ⟨hall, rfl⟩

theorem serializeFields_eq_ok : ∀ (fields : List (String × Data)) (acc : List (String × Value))
    (s : MapSer), serializeFields ⟨acc, none⟩ fields = .ok s ↔
      (∀ f ∈ fields, f.2.Representable) ∧ s = ⟨insertAll (projectFields fields) acc, none⟩
  | [], acc, s => by simp [serializeFields, projectFields, insertAll, eq_comm]
  | (key, value) :: fields, acc, s => by
    rw [serializeFields, except_bind_eq_ok, projectFields, insertAll_append,
      List.forall_mem_cons, and_assoc, ← serializeFields_eq_ok fields]
    simp only [serialize_eq_ok value, put_eq]
    constructor
    · rintro ⟨_, ⟨hd, rfl⟩, h⟩
      exact ⟨hd, h⟩
    · rintro ⟨hd, h⟩
      exact ⟨_, ⟨hd, rfl⟩, h⟩

theorem serializeVariantFields_eq_ok : ∀ (fields : List (String × Data)) (variant : String)
    (acc : List (String × Value)) (s : StructVariantSer),
    serializeVariantFields ⟨variant, acc⟩ fields = .ok s ↔
      (∀ f ∈ fields, f.2.Representable) ∧ s = ⟨variant, insertAll (projectFields fields) acc⟩
  | [], variant, acc, s => by simp [serializeVariantFields, projectFields, insertAll, eq_comm]
  | (key, value) :: fields, variant, acc, s => by
    rw [serializeVariantFields, except_bind_eq_ok, projectFields, insertAll_append,
      List.forall_mem_cons, and_assoc, ← serializeVariantFields_eq_ok fields]
    simp only [serialize_eq_ok value, serializeVariantField_eq]
    constructor
    · rintro ⟨_, ⟨hd, rfl⟩, h⟩
      exact ⟨hd, h⟩
    · rintro ⟨hd, h⟩
      exact ⟨_, ⟨hd, rfl⟩, h⟩

end

/-- Serializing a value fails exactly if something in it cannot be written or nothing is left of it,
and else gives its projection: every part comes to its own projection, which is nothing for the nulls
only. -/
theorem toValue_exact (d : Data) :
    ((∃ e, toValue d = .error e) ↔
      (∃ x : Data, x.Within d ∧ x.Unrepresentable) ∨ d.isNull = true) ∧
    ∀ v, toValue d = .ok v → d.project = some v ∧
      ∀ x : Data, x.Within d → serialize x = .ok x.project ∧
        (x.project = none ↔ x.isNull = true) := by
  by_cases hrep : d.Representable
  · have hserialize := (serialize_eq_ok d _).mpr ⟨hrep, rfl⟩
    have hnull := Data.project_eq_none d hrep
    have hno : ¬ ∃ x : Data, x.Within d ∧ x.Unrepresentable := fun ⟨x, hx, hu⟩ => hrep x hx hu
    have hparts : ∀ x : Data, x.Within d → serialize x = .ok x.project ∧
        (x.project = none ↔ x.isNull = true) := by
      intro x hx
      have hx' := hrep.of_within hx
      exact ⟨(serialize_eq_ok x _).mpr ⟨hx', rfl⟩, Data.project_eq_none x hx'⟩
    unfold toValue
    rw [hserialize, ← hnull]
    cases hp : d.project with
    | none => simp [bind, Except.bind]
    | some v =>
      refine ⟨by simp [bind, Except.bind, hno], fun v' hv => ⟨?_, hparts⟩⟩
      simpa [bind, Except.bind] using hv
  · obtain ⟨e, he⟩ : ∃ e, serialize d = .error e := by
      cases hs : serialize d with
      | error e => exact ⟨e, rfl⟩
      | ok out => exact absurd ((serialize_eq_ok d out).mp hs).1 hrep
    have herr : toValue d = .error e := by
      unfold toValue
      rw [he]
      rfl
    unfold Data.Representable at hrep
    push Not at hrep
    exact ⟨⟨fun _ => Or.inl hrep, fun _ => ⟨e, herr⟩⟩, fun v hv => by simp [herr] at hv⟩

/-- The record of a city without a name, its id given twice. -/
theorem toValue_exact_city :
    (Data.struct [("name", .none), ("id", .u32 1), ("id", .u32 2)]).project =
      some (.map [("id", .u32 2)]) := by
  have hok : toValue (.struct [("name", .none), ("id", .u32 1), ("id", .u32 2)]) =
      .ok (.map [("id", .u32 2)]) := by
    decide +kernel
  exact ((toValue_exact _).2 _ hok).1

end ValueSerializer

section Tags

namespace Data

/-- The name a tagged form is tagged with. -/
def tagOf : Value → Option String
  | .string name => .some name
  | .map [(name, _)] => .some name
  | _ => .none

theorem Tagged.tagOf_eq {d : Data} {name : String} {v : Value} (h : d.Tagged name v) :
    tagOf v = .some name := by
  unfold Tagged at h
  split at h
  · rw [h, tagOf]
  · obtain ⟨payload, rfl⟩ := h
    rfl

theorem Representable.of_isNull {d : Data} (h : d.isNull = true) : d.Representable := by
  fun_induction isNull d with
  | case1 | case2 | case3 => exact (representable_of_parts id).mpr (by simp [parts])
  | case4 value ih => exact (representable_of_parts id).mpr (by simpa [parts] using ih h)
  | case5 value ih => exact (representable_of_parts id).mpr (by simpa [parts] using ih h)
  | case6 d => cases h

/-- A variant projects to its tagged form, if it is none that loses its tag. -/
theorem exists_tagged {d : Data} {name : String} (hname : d.variantName = .some name)
    (hrep : d.Representable) (hkeep : ¬ d.LosesTag) : ∃ v, d.project = .some v ∧ d.Tagged name v := by
  cases d <;> simp only [variantName, reduceCtorEq, Option.some.injEq] at hname <;> subst hname
  case unitVariant variant => exact ⟨_, rfl, rfl⟩
  case newtypeVariant variant value =>
    have hvalue := (representable_iff.mp hrep).2 value (List.mem_singleton_self value)
    obtain ⟨v, hv⟩ : ∃ v, value.project = .some v := by
      cases hp : value.project with
      | some v => exact ⟨v, rfl⟩
      | none => exact absurd ⟨variant, value, rfl, (project_eq_none value hvalue).mp hp⟩ hkeep
    exact ⟨.map [(variant, v)], by rw [project, hv]; rfl, v, rfl⟩
  case tupleVariant variant fields => exact ⟨_, by rw [project], _, rfl⟩
  case structVariant variant fields => exact ⟨_, by rw [project], _, rfl⟩

/-- A newtype variant around a null is serialized to the empty map. -/
theorem LosesTag.serialize_eq {d : Data} (h : d.LosesTag) :
    ValueSerializer.serialize d = .ok (.some (.map [])) := by
  obtain ⟨variant, value, rfl, hnull⟩ := h
  have hrep := Representable.of_isNull hnull
  refine (ValueSerializer.serialize_eq_ok _ _).mpr
    ⟨(representable_of_parts id).mpr (by simpa [parts] using hrep), ?_⟩
  rw [project, (project_eq_none value hrep).mpr hnull]
  rfl

theorem keepsTag_iff_of_variantName {d : Data} {name : String} (hname : d.variantName = .some name) :
    d.KeepsTag name ↔ ¬ d.LosesTag := by
  constructor
  · intro hkeep hlose
    obtain ⟨v, hv, htag⟩ := hkeep.tagged _ hlose.serialize_eq
    have := htag.tagOf_eq
    rw [← Option.some.inj hv] at this
    cases this
  · intro hno
    have htagged : ∀ out, ValueSerializer.serialize d = .ok out →
        ∃ v, out = .some v ∧ d.Tagged name v := by
      intro out hout
      obtain ⟨hrep, rfl⟩ := (ValueSerializer.serialize_eq_ok d out).mp hout
      exact exists_tagged hname hrep hno
    refine ⟨htagged, fun out hout d' name' hname' hne hout' => ?_⟩
    obtain ⟨v, rfl, htag⟩ := htagged out hout
    by_cases hlose : d'.LosesTag
    · rw [hlose.serialize_eq, Except.ok.injEq, Option.some.injEq] at hout'
      rw [← hout'] at htag
      cases htag.tagOf_eq
    · obtain ⟨hrep', hp⟩ := (ValueSerializer.serialize_eq_ok d' _).mp hout'
      obtain ⟨v', hv', htag'⟩ := exists_tagged hname' hrep' hlose
      rw [hv', Option.some.injEq] at hp
      have := htag'.tagOf_eq
      rw [← hp, htag.tagOf_eq, Option.some.injEq] at this
      exact hne this.symm

/-- A value of an enum keeps its tag unless it is a newtype variant around a null, alone and anywhere in
a record. -/
theorem keepsTag_iff (d : Data) :
    (∀ name, d.variantName = .some name → (d.KeepsTag name ↔ ¬ d.LosesTag)) ∧
    ((∀ (x : Data) (name : String), x.Within d → x.variantName = .some name → x.KeepsTag name) ↔
      ∀ x : Data, x.Within d → ¬ x.LosesTag) := by
  refine ⟨fun name hname => keepsTag_iff_of_variantName hname, fun h x hx hlose => ?_,
    fun h x name hx hname => (keepsTag_iff_of_variantName hname).mpr (h x hx)⟩
  obtain ⟨variant, value, rfl, hnull⟩ := id hlose
  exact (keepsTag_iff_of_variantName rfl).mp (h _ variant hx rfl) hlose

theorem keepsTag_iff_point : (newtypeVariant "Point" (u32 9)).KeepsTag "Point" := by
  refine ((keepsTag_iff _).1 "Point" rfl).mpr ?_
  rintro ⟨variant, value, heq, hnull⟩
  cases heq
  cases hnull

/-- Two variants around a null are serialized to one value, which is no tagged form. -/
theorem not_keepsTag_null :
    ValueSerializer.serialize (newtypeVariant "Some" none) = .ok (.some (.map [])) ∧
    ValueSerializer.serialize (newtypeVariant "Other" (some unit)) = .ok (.some (.map [])) ∧
    ¬ (newtypeVariant "Some" none).KeepsTag "Some" := by
  refine ⟨by decide +kernel, by decide +kernel, fun h => ?_⟩
  exact (keepsTag_iff_of_variantName rfl).mp h ⟨"Some", none, rfl, rfl⟩

end Data

end Tags

end MmdbWriter
