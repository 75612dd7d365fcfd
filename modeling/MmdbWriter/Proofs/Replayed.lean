import MmdbWriter.Proofs.Projected

/-!
# What the visitor reads

A value that can be written has two ways into a record: `to_value` projects it, and the visitor reads
what it emits. The visitor takes nulls, newtypes and enums in no place, and where there are none both
come to the same value.
-/

namespace MmdbWriter

namespace Data

/-- The visitor has a method for the value's own event. -/
def isVisited : Data → Bool
  | none | some _ | unit | unitStruct | newtypeStruct _ => false
  | unitVariant _ | newtypeVariant _ _ | tupleVariant _ _ | structVariant _ _ => false
  | _ => true

/-- It has one for every event of the value. -/
def Visited (d : Data) : Prop := ∀ x : Data, x.Within d → x.isVisited = true

theorem visited_iff {d : Data} : d.Visited ↔ d.isVisited = true ∧ ∀ p ∈ d.parts, p.Visited := by
  constructor
  · exact fun h => ⟨h d .refl, fun p hp x hx => h x (.part hp hx)⟩
  · rintro ⟨hd, hparts⟩ x hx
    cases hx with
    | refl => exact hd
    | part hp hx => exact hparts _ hp x hx

theorem visited_of_parts {d : Data} (h : d.isVisited = true) : d.Visited ↔ ∀ p ∈ d.parts, p.Visited := by
  rw [visited_iff, and_iff_right h]

theorem not_visited {d : Data} (h : d.isVisited = false) : ¬ d.Visited := fun hv => by
  rw [(visited_iff.mp hv).1] at h
  cases h

theorem visited_map {entries : List (Data × Data)} : (map entries).Visited ↔
    ∀ e ∈ entries, e.1.Visited ∧ e.2.Visited := by
  rw [visited_of_parts rfl]
  simp only [parts, List.mem_flatMap, List.mem_cons, List.not_mem_nil, or_false]
  constructor
  · exact fun h e he => ⟨h _ ⟨e, he, Or.inl rfl⟩, h _ ⟨e, he, Or.inr rfl⟩⟩
  · rintro h p ⟨e, he, rfl | rfl⟩
    · exact (h e he).1
    · exact (h e he).2

theorem Visited.exists_project {d : Data} (h : d.Visited) (hrep : d.Representable) :
    ∃ v, d.project = .some v := by
  cases hp : d.project with
  | some v => exact ⟨v, rfl⟩
  | none =>
    have hnull := (project_eq_none d hrep).mp hp
    have hno : d.isVisited = false := by cases d <;> first | rfl | cases hnull
    exact absurd h (not_visited hno)

end Data

/-- `to_value` makes of a value its projection, where all of it can be written and there is one. -/
theorem ValueSerializer.toValue_eq_ok {d : Data} {v : Value} :
    toValue d = .ok v ↔ d.Representable ∧ d.project = some v := by
  unfold toValue
  rw [except_bind_eq_ok]
  constructor
  · rintro ⟨out, hout, hv⟩
    obtain ⟨hrep, rfl⟩ := (serialize_eq_ok d out).mp hout
    refine ⟨hrep, ?_⟩
    cases hp : d.project with
    | none =>
      rw [hp] at hv
      cases hv
    | some u =>
      rw [hp] at hv
      rw [Except.ok.inj hv]
  · rintro ⟨hrep, hp⟩
    refine ⟨d.project, (serialize_eq_ok d _).mpr ⟨hrep, rfl⟩, ?_⟩
    rw [hp]

namespace ValueVisitor

open Data (Representable Visited project projectAll projectEntries projectFields)
open ValueSerializer (insertAll insertAll_append)

theorem keyString_eq_ok {key : Data} (h : key.isText = true) {k : String} :
    keyString key = .ok k ↔ key.Visited ∧ key.project = some (.string k) := by
  cases key with
  | str s =>
    rw [Data.visited_of_parts rfl]
    simp [keyString, project, Data.parts]
  | char c =>
    rw [Data.visited_of_parts rfl]
    simp [keyString, project, Data.parts]
  | some _ | newtypeStruct _ | unitVariant _ =>
    exact ⟨fun h => (by cases h), fun h => absurd h.1 (Data.not_visited rfl)⟩
  | _ => cases h

theorem replay_eq_ok_of_no_parts {d : Data} {u v : Value} (hr : replay d = .ok u)
    (hp : d.project = some u) (hd : d.isVisited = true) (hparts : d.parts = []) :
    replay d = .ok v ↔ d.Visited ∧ d.project = some v := by
  rw [Data.visited_of_parts hd, hparts, hr, hp]
  simp

theorem replay_eq_ok_of_not_visited {d : Data} {v : Value} (hr : replay d = .error .invalidType)
    (hd : d.isVisited = false) : replay d = .ok v ↔ d.Visited ∧ d.project = some v := by
  rw [hr]
  constructor
  · intro h
    cases h
  · exact fun h => absurd h.1 (Data.not_visited hd)

mutual

/-- A value that can be written is read if the visitor takes all of it, and then as its projection. -/
theorem replay_eq_ok : ∀ (d : Data) {v : Value}, d.Representable →
    (replay d = .ok v ↔ d.Visited ∧ d.project = some v)
  | .bool _, _, _ | .i8 _, _, _ | .i16 _, _, _ | .i32 _, _, _ | .u8 _, _, _ | .u16 _, _, _ =>
    replay_eq_ok_of_no_parts rfl rfl rfl rfl
  | .u32 _, _, _ | .u64 _, _, _ | .u128 _, _, _ | .f32 _, _, _ | .f64 _, _, _ | .char _, _, _ =>
    replay_eq_ok_of_no_parts rfl rfl rfl rfl
  | .str _, _, _ | .bytes _, _, _ => replay_eq_ok_of_no_parts rfl rfl rfl rfl
  | .i64 _, _, h | .i128 _, _, h => (h _ .refl trivial).elim
  | .none, _, _ | .some _, _, _ | .unit, _, _ | .unitStruct, _, _ | .newtypeStruct _, _, _ =>
    replay_eq_ok_of_not_visited rfl rfl
  | .unitVariant _, _, _ | .newtypeVariant _ _, _, _ => replay_eq_ok_of_not_visited rfl rfl
  | .tupleVariant _ _, _, _ | .structVariant _ _, _, _ => replay_eq_ok_of_not_visited rfl rfl
  | .seq items, v, h => by
    rw [replay, visitSeq_eq_ok items (Data.representable_iff.mp h).2, Data.visited_of_parts rfl,
      project, List.nil_append, Option.some.injEq, eq_comm (a := v)]
    rfl
  | .tuple items, v, h => by
    rw [replay, visitSeq_eq_ok items (Data.representable_iff.mp h).2, Data.visited_of_parts rfl,
      project, List.nil_append, Option.some.injEq, eq_comm (a := v)]
    rfl
  | .tupleStruct fields, v, h => by
    rw [replay, visitSeq_eq_ok fields (Data.representable_iff.mp h).2, Data.visited_of_parts rfl,
      project, List.nil_append, Option.some.injEq, eq_comm (a := v)]
    rfl
  | .map entries, v, h => by
    rw [replay, visitMap_eq_ok entries (Data.representable_map.mp h), Data.visited_map, project,
      ← foldl_mapInsert_eq_lastWins, Option.some.injEq, eq_comm (a := v)]
    rfl
  | .struct fields, v, h => by
    have hfields : ∀ f ∈ fields, f.2.Representable :=
      List.forall_mem_map.mp (Data.representable_iff.mp h).2
    rw [replay, visitStruct_eq_ok fields hfields, Data.visited_of_parts rfl, Data.parts,
      List.forall_mem_map, project, ← foldl_mapInsert_eq_lastWins, Option.some.injEq, eq_comm (a := v)]
    rfl

theorem visitSeq_eq_ok : ∀ (items : List Data) {acc : List Value} {v : Value},
    (∀ d ∈ items, d.Representable) →
    (visitSeq acc items = .ok v ↔
      (∀ d ∈ items, d.Visited) ∧ v = .array (acc ++ projectAll items))
  | [], acc, v, _ => by simp [visitSeq, projectAll, eq_comm]
  | d :: items, acc, v, h => by
    obtain ⟨hd, hitems⟩ := List.forall_mem_cons.mp h
    rw [visitSeq, except_bind_eq_ok, List.forall_mem_cons, projectAll, ← List.append_assoc]
    constructor
    · rintro ⟨item, hitem, hrest⟩
      obtain ⟨hvis, hp⟩ := (replay_eq_ok d hd).mp hitem
      obtain ⟨hall, rfl⟩ := (visitSeq_eq_ok items hitems).mp hrest
      rw [hp]
      exact ⟨⟨hvis, hall⟩, rfl⟩
    · rintro ⟨⟨hvis, hall⟩, rfl⟩
      obtain ⟨item, hp⟩ := hvis.exists_project hd
      refine ⟨item, (replay_eq_ok d hd).mpr ⟨hvis, hp⟩, ?_⟩
      rw [hp]
      exact (visitSeq_eq_ok items hitems).mpr ⟨hall, rfl⟩

theorem visitMap_eq_ok : ∀ (entries : List (Data × Data)) {acc : List (String × Value)} {v : Value},
    (∀ e ∈ entries, e.1.Representable ∧ e.1.isText = true ∧ e.2.Representable) →
    (visitMap acc entries = .ok v ↔ (∀ e ∈ entries, e.1.Visited ∧ e.2.Visited) ∧
      v = .map (insertAll (projectEntries entries) acc))
  | [], acc, v, _ => by simp [visitMap, projectEntries, insertAll, eq_comm]
  | (key, value) :: entries, acc, v, h => by
    obtain ⟨⟨-, htext, hvalue⟩, hentries⟩ := List.forall_mem_cons.mp h
    rw [visitMap, except_bind_eq_ok, List.forall_mem_cons]
    constructor
    · rintro ⟨k, hk, hrest⟩
      obtain ⟨u, hu, hrest⟩ := except_bind_eq_ok.mp hrest
      obtain ⟨hkvis, hkp⟩ := (keyString_eq_ok htext).mp hk
      obtain ⟨hvis, hp⟩ := (replay_eq_ok value hvalue).mp hu
      obtain ⟨hall, rfl⟩ := (visitMap_eq_ok entries hentries).mp hrest
      rw [projectEntries, hkp, hp, insertAll_append]
      exact ⟨⟨⟨hkvis, hvis⟩, hall⟩, rfl⟩
    · rintro ⟨⟨⟨hkvis, hvis⟩, hall⟩, rfl⟩
      obtain ⟨k, hkp⟩ := (Data.isText_iff key).mp htext
      obtain ⟨u, hp⟩ := hvis.exists_project hvalue
      refine ⟨k, (keyString_eq_ok htext).mpr ⟨hkvis, hkp⟩, except_bind_eq_ok.mpr ⟨u, ?_, ?_⟩⟩
      · exact (replay_eq_ok value hvalue).mpr ⟨hvis, hp⟩
      · rw [projectEntries, hkp, hp, insertAll_append]
        exact (visitMap_eq_ok entries hentries).mpr ⟨hall, rfl⟩

theorem visitStruct_eq_ok : ∀ (fields : List (String × Data)) {acc : List (String × Value)} {v : Value},
    (∀ f ∈ fields, f.2.Representable) →
    (visitStruct acc fields = .ok v ↔
      (∀ f ∈ fields, f.2.Visited) ∧ v = .map (insertAll (projectFields fields) acc))
  | [], acc, v, _ => by simp [visitStruct, projectFields, insertAll, eq_comm]
  | (key, value) :: fields, acc, v, h => by
    obtain ⟨hvalue, hfields⟩ := List.forall_mem_cons.mp h
    rw [visitStruct, except_bind_eq_ok, List.forall_mem_cons, projectFields, insertAll_append]
    constructor
    · rintro ⟨u, hu, hrest⟩
      obtain ⟨hvis, hp⟩ := (replay_eq_ok value hvalue).mp hu
      obtain ⟨hall, rfl⟩ := (visitStruct_eq_ok fields hfields).mp hrest
      rw [hp]
      exact ⟨⟨hvis, hall⟩, rfl⟩
    · rintro ⟨⟨hvis, hall⟩, rfl⟩
      obtain ⟨u, hp⟩ := hvis.exists_project hvalue
      refine ⟨u, (replay_eq_ok value hvalue).mpr ⟨hvis, hp⟩, ?_⟩
      rw [hp]
      exact (visitStruct_eq_ok fields hfields).mpr ⟨hall, rfl⟩

end

/-- A value that `to_value` takes is read by the visitor exactly if there is no null, no option, no
newtype and no enum anywhere in it, and then as the value that `to_value` makes of it. -/
theorem replay_iff_visited {d : Data} {v : Value} (h : ValueSerializer.toValue d = .ok v) :
    (replay d = .ok v ↔ d.Visited) ∧ (¬ d.Visited → ∃ e, replay d = .error e) := by
  obtain ⟨hrep, hp⟩ := ValueSerializer.toValue_eq_ok.mp h
  refine ⟨(replay_eq_ok d hrep).trans (and_iff_left hp), fun hno => ?_⟩
  cases hr : replay d with
  | error e => exact ⟨e, rfl⟩
  | ok u => exact absurd ((replay_eq_ok d hrep).mp hr).1 hno

/-- The name that is `None` is left out of the record, but the visitor does not take it. -/
theorem replay_iff_visited_name :
    replay (.struct [("id", .u32 7)]) = .ok (.map [("id", .u32 7)]) ∧
    ∃ e, replay (.struct [("name", .none), ("id", .u32 7)]) = .error e := by
  have hid : ValueSerializer.toValue (.struct [("id", .u32 7)]) = .ok (.map [("id", .u32 7)]) := by
    decide +kernel
  have hname : ValueSerializer.toValue (.struct [("name", .none), ("id", .u32 7)]) =
      .ok (.map [("id", .u32 7)]) := by decide +kernel
  constructor
  · refine (replay_iff_visited hid).1.mpr (Data.visited_iff.mpr ⟨rfl, fun p hp => ?_⟩)
    rw [List.mem_singleton.mp hp]
    exact Data.visited_iff.mpr ⟨rfl, fun q hq => by cases hq⟩
  · refine (replay_iff_visited hname).2 fun h => ?_
    cases h .none (.part List.mem_cons_self .refl)

end ValueVisitor

end MmdbWriter
