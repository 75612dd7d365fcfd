import MmdbWriter.Proofs.Orders
import MmdbWriter.Proofs.Replayed

/-!
# Runs of serde inserts

A run of inserts of serializable values is the run of inserts of their projections, where those that
cannot be written leave the writer as it was. So `get` is the fold of the merges of the projections, and
these are values the source's type holds.
-/

namespace MmdbWriter

namespace Value

theorem wf_foldl_mapInsert : ∀ {l m : List (String × Value)}, (map m).WF → WFMap l →
    (map (l.foldl (fun m e => mapInsert e.1 e.2 m) m)).WF
  | [], _, h, _ => h
  | _ :: l, _, h, hl => by
    rw [List.foldl_cons]
    exact wf_foldl_mapInsert (l := l) (wf_mapInsert h hl.1) hl.2

theorem wf_lastWins {l : List (String × Value)} (h : WFMap l) : (map (LastWins.lastWins l)).WF := by
  rw [← foldl_mapInsert_eq_lastWins]
  exact wf_foldl_mapInsert ⟨List.Pairwise.nil, trivial⟩ h

theorem wfMap_append : ∀ {l l' : List (String × Value)}, WFMap l → WFMap l' → WFMap (l ++ l')
  | [], _, _, h' => h'
  | _ :: _, _, h, h' => ⟨h.1, wfMap_append h.2 h'⟩

end Value

namespace Data

open Value (WFMap WFArray wfMap_append wfArray_append wf_lastWins wf_singleton)

mutual

/-- The keys of every map in a projection ascend. -/
theorem wf_project : ∀ (d : Data) {v : Value}, d.project = .some v → v.WF
  | some value, _, h | newtypeStruct value, _, h => wf_project value h
  | newtypeVariant variant value, _, h => by
    obtain rfl := Option.some.inj h
    cases hp : value.project with
    | none => exact ⟨List.Pairwise.nil, trivial⟩
    | some v => exact wf_singleton (wf_project value hp)
  | seq items, _, h | tuple items, _, h | tupleStruct items, _, h => by
    obtain rfl := Option.some.inj h
    exact wfArray_projectAll items
  | tupleVariant variant fields, _, h => by
    obtain rfl := Option.some.inj h
    exact wf_singleton (wfArray_projectAll fields)
  | map entries, _, h => by
    obtain rfl := Option.some.inj h
    exact wf_lastWins (wfMap_projectEntries entries)
  | struct fields, _, h => by
    obtain rfl := Option.some.inj h
    exact wf_lastWins (wfMap_projectFields fields)
  | structVariant variant fields, _, h => by
    obtain rfl := Option.some.inj h
    exact wf_singleton (wf_lastWins (wfMap_projectFields fields))
  | bool _, _, h | i8 _, _, h | i16 _, _, h | i32 _, _, h | u8 _, _, h | u16 _, _, h => by
    obtain rfl := Option.some.inj h
    trivial
  | u32 _, _, h | u64 _, _, h | u128 _, _, h | f32 _, _, h | f64 _, _, h | char _, _, h => by
    obtain rfl := Option.some.inj h
    trivial
  | str _, _, h | bytes _, _, h | unitVariant _, _, h => by
    obtain rfl := Option.some.inj h
    trivial
  | i64 _, _, h | i128 _, _, h | none, _, h | unit, _, h | unitStruct, _, h => by cases h

theorem wfArray_projectAll : ∀ ds : List Data, WFArray (projectAll ds)
  | [] => trivial
  | d :: ds => by
    rw [projectAll]
    refine wfArray_append ?_ (wfArray_projectAll ds)
    cases hp : d.project with
    | none => trivial
    | some v => exact ⟨wf_project d hp, trivial⟩

theorem wfMap_projectEntries : ∀ es : List (Data × Data), WFMap (projectEntries es)
  | [] => trivial
  | (key, value) :: es => by
    rw [projectEntries]
    refine wfMap_append ?_ (wfMap_projectEntries es)
    split
    · rename_i k v hk hv
      exact ⟨wf_project value hv, trivial⟩
    · trivial

theorem wfMap_projectFields : ∀ fields : List (String × Data), WFMap (projectFields fields)
  | [] => trivial
  | (key, value) :: fields => by
    rw [projectFields]
    refine wfMap_append ?_ (wfMap_projectFields fields)
    cases hp : value.project with
    | none => trivial
    | some v => exact ⟨wf_project value hp, trivial⟩

end

end Data

/-- An insert of a serializable value. -/
inductive SerdeInsert where
  | value (net : IpNet) (d : Data)
  | merged (net : IpNet) (d : Data) (strategy : MergeStrategy)

namespace SerdeInsert

/-- The insert of the value that `to_value` makes of the data. -/
def projected : SerdeInsert → Option Insert
  | value net d => (ValueSerializer.toValue d).toOption.map fun v => .value net v
  | merged net d strategy => (ValueSerializer.toValue d).toOption.map fun v => .merged net v strategy

variable [Ipnet]

def exec : SerdeInsert → Exec Fault Writer Unit
  | value net d => Writer.insert net d
  | merged net d strategy => Writer.insertMerged net d strategy

/-- The insert does what that of the projection does, or nothing at all. -/
theorem exec_eq (c : SerdeInsert) (w : Writer) :
    (∃ i, c.projected = some i ∧ c.exec w = i.exec w) ∨
      c.projected = none ∧ ∃ e, c.exec w = (.error (.err e), w) := by
  cases c with
  | value net d =>
    cases hv : ValueSerializer.toValue d with
    | ok v =>
      refine Or.inl ⟨.value net v, by rw [projected, hv]; rfl, ?_⟩
      show Writer.insert net d w = _
      rw [Writer.insert, hv]
      rfl
    | error e =>
      refine Or.inr ⟨by rw [projected, hv]; rfl, e, ?_⟩
      show Writer.insert net d w = _
      rw [Writer.insert, hv]
      rfl
  | merged net d strategy =>
    cases hv : ValueSerializer.toValue d with
    | ok v =>
      refine Or.inl ⟨.merged net v strategy, by rw [projected, hv]; rfl, ?_⟩
      show Writer.insertMerged net d strategy w = _
      rw [Writer.insertMerged, hv]
      rfl
    | error e =>
      refine Or.inr ⟨by rw [projected, hv]; rfl, e, ?_⟩
      show Writer.insertMerged net d strategy w = _
      rw [Writer.insertMerged, hv]
      rfl

omit [Ipnet] in
theorem keeps_projected {c : SerdeInsert} {i : Insert} (h : c.projected = some i) :
    i.Keeps Value.WF := by
  have hwf : ∀ {d : Data} {v : Value}, (ValueSerializer.toValue d).toOption = some v → v.WF := by
    intro d v hv
    cases ht : ValueSerializer.toValue d with
    | error e =>
      rw [ht] at hv
      cases hv
    | ok u =>
      rw [ht] at hv
      obtain rfl : u = v := Option.some.inj hv
      exact d.wf_project (ValueSerializer.toValue_eq_ok.mp ht).2
  cases c with
  | value net d =>
    obtain ⟨v, hv, rfl⟩ := Option.map_eq_some_iff.mp h
    exact fun old u _ hu => Option.some.inj hu ▸ hwf hv
  | merged net d strategy =>
    obtain ⟨v, hv, rfl⟩ := Option.map_eq_some_iff.mp h
    exact fun old u hold hu => Writer.wf_mergeOp (hwf hv) hold hu

end SerdeInsert

namespace Writer

variable [Ipnet]

/-- A run of serde inserts. -/
def runSerde : List SerdeInsert → Writer → List (Except Fault Unit) × Writer
  | [], w => ([], w)
  | c :: cs, w => ((c.exec w).1 :: (runSerde cs (c.exec w).2).1, (runSerde cs (c.exec w).2).2)

/-- The run leaves what the inserts of the projections leave. -/
theorem runSerde_eq : ∀ (cs : List SerdeInsert) (w : Writer),
    (runSerde cs w).2 = (run ((cs.filterMap SerdeInsert.projected).map .insert) w).2
  | [], _ => rfl
  | c :: cs, w => by
    rw [runSerde, runSerde_eq cs]
    rcases c.exec_eq w with ⟨i, hi, hexec⟩ | ⟨hnone, e, hexec⟩
    · rw [List.filterMap_cons_some hi, hexec]
      rfl
    · rw [List.filterMap_cons_none hnone, hexec]

variable {w : Writer}

/-- After any run of serde inserts `get` is the fold of the merges of the projections, of the
inserts that could be written, were accepted and cover the address; a reserved address has no value. -/
theorem get_runSerde (hw : w.Reachable) (cs : List SerdeInsert)
    (hlim : RunInLimits ((cs.filterMap SerdeInsert.projected).map .insert) w) {ip : IpAddr}
    {old : Option Value} (hold : w.get ip = .ok old) :
    (runSerde cs w).2.get ip =
      if w.reservedNetworks = .excluded ∧ ReservedAddr w.ipVersion ip then .ok none
      else .ok (((cs.filterMap SerdeInsert.projected).filter fun i =>
        w.Accepts i.net ∧ i.net.Covers w.ipVersion ip).foldl (fun old i => i.op old) old) := by
  rw [runSerde_eq]
  exact hw.get_run _ hlim hold

omit [Ipnet] in
/-- An id joins the city, and a number the format has no type for changes nothing. -/
theorem get_runSerde_city :
    let _ := Ipnet.std
    let net : IpNet := .v4 ⟨0x01000000, 8, by decide⟩
    let cs : List SerdeInsert := [.value net (.struct [("city", .str "Oslo")]), .value net (.i64 7),
      .merged net (.struct [("id", .u8 7), ("name", .none)]) .deepMerge]
    ∃ w : Writer, ({ databaseType := "City", ipVersion := .v4 } : WriterBuilder).build = .ok w ∧
      (runSerde cs w).2.get (.v4 0x01020304) =
        .ok (some (.map [("city", .string "Oslo"), ("id", .u16 7)])) := by
  intro _ net cs
  let b : WriterBuilder := { databaseType := "City", ipVersion := .v4 }
  let w : Writer := { toWriterBuilder := b, tree := Tree.new, pool := ValuePool.new }
  have hb : b.build = .ok w := rfl
  have hold : w.get (.v4 0x01020304) = .ok none := by decide +kernel
  have hlim : RunInLimits ((cs.filterMap SerdeInsert.projected).map .insert) w := by
    refine ⟨⟨?_, ?_⟩, ⟨?_, ?_⟩, ?_, ?_⟩ <;> decide +kernel
  exact ⟨w, hb, (get_runSerde (Reachable.of_build hb) cs hlim hold).trans (by decide +kernel)⟩

theorem wf_of_get_runSerde {b : WriterBuilder} (hb : b.build = .ok w) (cs : List SerdeInsert)
    {ip : IpAddr} {v : Value} (hget : (runSerde cs w).2.get ip = .ok (some v)) : v.WF := by
  rw [runSerde_eq] at hget
  refine forall_of_get (forall_run (fun c hc => ?_) (forall_build hb)) hget
  obtain ⟨i, hi, rfl⟩ := List.mem_map.mp hc
  obtain ⟨c, -, hc⟩ := List.mem_filterMap.mp hi
  exact SerdeInsert.keeps_projected hc

end Writer

end MmdbWriter
