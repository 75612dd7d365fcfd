import MmdbWriter.Proofs.Projected

/-!
# Merging a merge

Two values merged in one after the other give what their own merge gives, whatever was there before,
exactly where the second one joins what the first one has: a map there a map and an array an array.
-/

namespace MmdbWriter

open LastWins (Ascending)

namespace Value

section WellFormed

theorem wfMap_mapInsert {k : String} {v : Value} (hv : v.WF) : ∀ {m : List (String × Value)},
    WFMap m → WFMap (mapInsert k v m)
  | [], _ => ⟨hv, trivial⟩
  | (k', v') :: m, h => by
    unfold mapInsert
    split_ifs
    · exact ⟨hv, h⟩
    · exact ⟨hv, h.2⟩
    · exact ⟨h.1, wfMap_mapInsert hv h.2⟩

theorem wf_mapInsert {k : String} {v : Value} {m : List (String × Value)} (h : (map m).WF)
    (hv : v.WF) : (map (mapInsert k v m)).WF :=
  ⟨List.pairwise_map.mpr (ascending_mapInsert k v (List.pairwise_map.mp h.1)),
    wfMap_mapInsert hv h.2⟩

theorem wfArray_append : ∀ {l l' : List Value}, WFArray l → WFArray l' → WFArray (l ++ l')
  | [], _, _, h' => h'
  | _ :: _, _, h, h' => ⟨h.1, wfArray_append h.2 h'⟩

mutual

theorem wf_mergeDeep : ∀ {e n : Value}, e.WF → n.WF → (mergeDeep e n).WF
  | e, map n, he, hn => by
    cases e with
    | map m => exact wf_mergeMaps he hn.2
    | _ => exact hn
  | e, array n, he, hn => by
    cases e with
    | array m => exact wfArray_append he hn
    | _ => exact hn
  | _, string _, _, hn | _, double _, _, hn | _, bytes _, _, hn | _, u16 _, _, hn => hn
  | _, u32 _, _, hn | _, i32 _, _, hn | _, u64 _, _, hn | _, u128 _, _, hn => hn
  | _, bool _, _, hn | _, float _, _, hn => hn

theorem wf_mergeMaps : ∀ {m n : List (String × Value)}, (map m).WF → WFMap n →
    (map (mergeMaps m n)).WF
  | _, [], h, _ => h
  | m, (k, v) :: n, h, hn => by
    rw [mergeMaps]
    refine wf_mergeMaps (wf_mapInsert h ?_) hn.2
    cases hu : mapGet k m with
    | none => exact hn.1
    | some u => exact wf_mergeDeep (wf_of_mapGet h.2 hu) hn.1

end

theorem wf_mergeTopLevel {e n : Value} (he : e.WF) (hn : n.WF) : (mergeTopLevel e n).WF := by
  have hfold : ∀ {n m : List (String × Value)}, (map m).WF → WFMap n →
      (map (n.foldl (fun merged kv => mapInsert kv.1 kv.2 merged) m)).WF := by
    intro n
    induction n with
    | nil => exact fun h _ => h
    | cons e n ih => exact fun h hn => ih (wf_mapInsert h hn.1) hn.2
  cases e with
  | map m =>
    cases n with
    | map n => exact hfold he hn.2
    | _ => exact hn
  | _ => exact hn

theorem map_ext {m m' : List (String × Value)} (h : (map m).WF) (h' : (map m').WF)
    (hget : ∀ k, mapGet k m = mapGet k m') : m = m' := by
  refine Ascending.ext (List.pairwise_map.mp h.1) (List.pairwise_map.mp h'.1) fun k => ?_
  rw [← mapGet_eq_lookup, ← mapGet_eq_lookup, hget]

end WellFormed

mutual

/-- Merged onto `a`, the value joins what is there: a map a map, on its keys in the same way, and an
array an array. -/
def Fits (a : Value) : Value → Prop
  | map n => match a with
    | map m => FitsMap m n
    | _ => False
  | array _ => match a with
    | array _ => True
    | _ => False
  | _ => True

def FitsMap (m : List (String × Value)) : List (String × Value) → Prop
  | [] => True
  | (k, v) :: n => (match mapGet k m with
    | some u => Fits u v
    | none => True) ∧ FitsMap m n

end

mutual

/-- Where the value fits, merging it in last is merging it in first. -/
theorem mergeDeep_assoc : ∀ {e a b : Value}, e.WF → a.WF → b.WF → Fits a b →
    mergeDeep (mergeDeep e a) b = mergeDeep e (mergeDeep a b)
  | e, a, map n, he, ha, hb, hfits => by
    cases a with
    | map m =>
      cases e with
      | map l =>
        have hat := fun k v u => mergeDeep_assoc_at ha.2 hb.2 hfits (k := k) (v := v) (u := u)
        have hlm : (map (mergeMaps l m)).WF := wf_mergeMaps he ha.2
        have hmn : (map (mergeMaps m n)).WF := wf_mergeMaps ha hb.2
        refine congrArg map (map_ext (wf_mergeMaps hlm hb.2) (wf_mergeMaps he hmn.2) fun k => ?_)
        rw [mapGet_mergeMaps k n _ hb.1, mapGet_mergeMaps k m _ ha.1, mapGet_mergeMaps k _ l hmn.1,
          mapGet_mergeMaps k n m hb.1]
        cases hv : mapGet k n with
        | none => rfl
        | some v =>
          cases hu : mapGet k m with
          | none => rfl
          | some u =>
            cases hp : mapGet k l with
            | none => rfl
            | some p => exact congrArg some (hat k v u hv hu p (wf_of_mapGet he.2 hp))
      | _ => rfl
    | _ => exact hfits.elim
  | e, a, array n, _, _, _, hfits => by
    cases a with
    | array m =>
      cases e with
      | array l => exact congrArg array (List.append_assoc l m n)
      | _ => rfl
    | _ => exact hfits.elim
  | _, _, string _, _, _, _, _ | _, _, double _, _, _, _, _ | _, _, bytes _, _, _, _, _ => rfl
  | _, _, u16 _, _, _, _, _ | _, _, u32 _, _, _, _, _ | _, _, i32 _, _, _, _, _ => rfl
  | _, _, u64 _, _, _, _, _ | _, _, u128 _, _, _, _, _ | _, _, bool _, _, _, _, _ => rfl
  | _, _, float _, _, _, _, _ => rfl

theorem mergeDeep_assoc_at : ∀ {m n : List (String × Value)}, WFMap m → WFMap n → FitsMap m n →
    ∀ {k : String} {v u : Value}, mapGet k n = some v → mapGet k m = some u → ∀ p : Value, p.WF →
    mergeDeep (mergeDeep p u) v = mergeDeep p (mergeDeep u v)
  | _, [], _, _, _, _, _, _, hv, _, _, _ => by cases hv
  | m, (k', v') :: n, hm, hn, hfits, k, v, u, hv, hu, p, hp => by
    rw [mapGet] at hv
    split_ifs at hv with hk
    · subst hk
      cases hv
      have hfit := hfits.1
      rw [hu] at hfit
      exact mergeDeep_assoc hp (wf_of_mapGet hm hu) hn.1 hfit
    · exact mergeDeep_assoc_at hm hn.2 hfits.2 hv hu p hp

end

section Converse

theorem mergeDeep_map {e : Value} (h : ∀ l, e ≠ map l) (n : List (String × Value)) :
    mergeDeep e (map n) = map n := by
  cases e with
  | map l => exact absurd rfl (h l)
  | _ => rfl

theorem mergeDeep_array {e : Value} (h : ∀ l, e ≠ array l) (n : List Value) :
    mergeDeep e (array n) = array n := by
  cases e with
  | array l => exact absurd rfl (h l)
  | _ => rfl

theorem mergeDeep_into_map {a : Value} (h : ∀ m, a ≠ map m) (l : List (String × Value)) :
    mergeDeep (map l) a = a := by
  cases a with
  | map m => exact absurd rfl (h m)
  | _ => rfl

theorem mergeDeep_into_array {a : Value} (h : ∀ m, a ≠ array m) (l : List Value) :
    mergeDeep (array l) a = a := by
  cases a with
  | array m => exact absurd rfl (h m)
  | _ => rfl

theorem exists_fresh (n : List (String × Value)) : ∃ k, mapGet k n = none := by
  obtain ⟨k, hk⟩ := Infinite.exists_notMem_finset (n.map Prod.fst).toFinset
  refine ⟨k, ?_⟩
  rw [mapGet_eq_lookup, List.lookup_eq_none_iff]
  intro e he
  have hne : k ≠ e.1 := fun h => hk (List.mem_toFinset.mpr (List.mem_map.mpr ⟨e, he, h.symm⟩))
  simpa using hne

theorem mapGet_of_mem {n : List (String × Value)} (h : (map n).WF) {e : String × Value} (he : e ∈ n) :
    mapGet e.1 n = some e.2 := by
  rw [mapGet_eq_lookup]
  exact (Ascending.mem_iff (List.pairwise_map.mp h.1) e.1 e.2).mp he

theorem wf_singleton {k : String} {p : Value} (hp : p.WF) : (map [(k, p)]).WF :=
  ⟨List.pairwise_singleton _ _, hp, trivial⟩

theorem assoc_below {m n : List (String × Value)} (hm : (map m).WF) (hn : (map n).WF)
    (h : ∀ e : Value, e.WF → mergeDeep (mergeDeep e (map m)) (map n) =
      mergeDeep e (mergeDeep (map m) (map n))) {k : String} {v u : Value} (hv : mapGet k n = some v)
    (hu : mapGet k m = some u) {p : Value} (hp : p.WF) :
    mergeDeep (mergeDeep p u) v = mergeDeep p (mergeDeep u v) := by
  have hmn : (map (mergeMaps m n)).WF := wf_mergeMaps hm hn.2
  have heq : mergeMaps (mergeMaps [(k, p)] m) n = mergeMaps [(k, p)] (mergeMaps m n) :=
    map.inj (h _ (wf_singleton hp))
  have hkey := congrArg (mapGet k) heq
  rw [mapGet_mergeMaps k n _ hn.1, mapGet_mergeMaps k m _ hm.1, mapGet_mergeMaps k _ _ hmn.1,
    mapGet_mergeMaps k n m hn.1, hv, hu] at hkey
  simpa [mapGet] using hkey

mutual

/-- If merging it in last is merging it in first, the value fits. -/
theorem fits_of_assoc : ∀ {a b : Value}, a.WF → b.WF → (∀ e : Value, e.WF →
    mergeDeep (mergeDeep e a) b = mergeDeep e (mergeDeep a b)) → Fits a b
  | a, map n, ha, hb, h => by
    by_cases hmap : ∃ m, a = map m
    · obtain ⟨m, rfl⟩ := hmap
      exact fitsMap_of_assoc ha.2 hb.2 fun e he u hu p hp =>
        assoc_below ha hb h (mapGet_of_mem hb he) hu hp
    · -- a key that the new map lacks is lost in one order and kept in the other
      have hno : ∀ m, a ≠ map m := fun m hm => hmap ⟨m, hm⟩
      obtain ⟨k, hk⟩ := exists_fresh n
      have heq := h (map [(k, bool true)]) (wf_singleton trivial)
      rw [mergeDeep_into_map hno, mergeDeep_map hno] at heq
      have hkey := congrArg (mapGet k) (map.inj (heq.trans (by rw [mergeDeep])))
      rw [mapGet_mergeMaps k n _ hb.1, hk] at hkey
      simp [mapGet] at hkey
  | a, array n, _, _, h => by
    by_cases harr : ∃ m, a = array m
    · obtain ⟨m, rfl⟩ := harr
      trivial
    · have hno : ∀ m, a ≠ array m := fun m hm => harr ⟨m, hm⟩
      have heq := h (array [bool true]) ⟨trivial, trivial⟩
      rw [mergeDeep_into_array hno, mergeDeep_array hno] at heq
      have hlen := congrArg List.length (array.inj (heq.trans (by rw [mergeDeep])))
      simp at hlen
  | _, string _, _, _, _ | _, double _, _, _, _ | _, bytes _, _, _, _ | _, u16 _, _, _, _ => trivial
  | _, u32 _, _, _, _ | _, i32 _, _, _, _ | _, u64 _, _, _, _ | _, u128 _, _, _, _ => trivial
  | _, bool _, _, _, _ | _, float _, _, _, _ => trivial

theorem fitsMap_of_assoc : ∀ {m n : List (String × Value)}, WFMap m → WFMap n →
    (∀ e ∈ n, ∀ u, mapGet e.1 m = some u → ∀ p : Value, p.WF →
      mergeDeep (mergeDeep p u) e.2 = mergeDeep p (mergeDeep u e.2)) → FitsMap m n
  | _, [], _, _, _ => trivial
  | m, (k, v) :: n, hm, hn, h => by
    refine ⟨?_, fitsMap_of_assoc hm hn.2 fun e he => h e (List.mem_cons_of_mem _ he)⟩
    cases hu : mapGet k m with
    | none => trivial
    | some u => exact fits_of_assoc (wf_of_mapGet hm hu) hn.1 (h (k, v) List.mem_cons_self u hu)

end

theorem mergeTopLevel_assoc {e a b : Value} (he : e.WF) (ha : a.WF) (hb : b.WF)
    (h : ∀ n, b = map n → ∃ m, a = map m) :
    mergeTopLevel (mergeTopLevel e a) b = mergeTopLevel e (mergeTopLevel a b) := by
  cases b with
  | map n =>
    obtain ⟨m, rfl⟩ := h n rfl
    cases e with
    | map l =>
      have hlm := wf_mergeTopLevel he ha
      have hmn := wf_mergeTopLevel ha hb
      refine congrArg map (map_ext (wf_mergeTopLevel hlm hb) (wf_mergeTopLevel he hmn) fun k => ?_)
      rw [mapGet_foldl_mapInsert k n _ hb.1, mapGet_foldl_mapInsert k m l ha.1,
        mapGet_foldl_mapInsert k _ l hmn.1, mapGet_foldl_mapInsert k n m hb.1, Option.or_assoc]
    | _ => rfl
  | _ => cases e <;> cases a <;> rfl

end Converse

/-- Merging in one value after the other is merging in their merge, whatever was there before,
exactly where the second one fits the first one. For the top-level merge that is where the second one
is no map or both are. -/
theorem merge_assoc_iff {a b : Value} (ha : a.WF) (hb : b.WF) :
    ((∀ e : Value, e.WF → mergeDeep (mergeDeep e a) b = mergeDeep e (mergeDeep a b)) ↔ Fits a b) ∧
    ((∀ e : Value, e.WF → mergeTopLevel (mergeTopLevel e a) b = mergeTopLevel e (mergeTopLevel a b)) ↔
      ∀ n, b = map n → ∃ m, a = map m) := by
  refine ⟨⟨fits_of_assoc ha hb, fun h e he => mergeDeep_assoc he ha hb h⟩, fun h n hbn => ?_,
    fun h e he => mergeTopLevel_assoc he ha hb h⟩
  subst hbn
  by_contra hno
  have hnot : ∀ e, ¬ BothMaps e a [] := fun e hboth => by
    obtain ⟨-, m, -, hm⟩ := hboth.nil
    exact hno ⟨m, hm⟩
  have hnot' : ¬ BothMaps a (map n) [] := fun hboth => by
    obtain ⟨m, -, hm, -⟩ := hboth.nil
    exact hno ⟨m, hm⟩
  obtain ⟨k, hk⟩ := exists_fresh n
  have heq := h (map [(k, bool true)]) (wf_singleton trivial)
  rw [mergeTopLevel_of_not_bothMaps (hnot _), mergeTopLevel_of_not_bothMaps hnot'] at heq
  have hkey := congrArg (mapGet k) (map.inj (heq.trans (by rw [mergeTopLevel])))
  rw [mapGet_foldl_mapInsert k n _ hb.1, hk] at hkey
  simp [mapGet] at hkey

/-- The items of an array join in either order, but a map that comes back where a flag was set joins the
map before the flag only if it is merged with the flag first. -/
theorem merge_assoc_iff_flag :
    (∀ e : Value, e.WF → mergeDeep (mergeDeep e (map [("a", array [bool true])]))
      (map [("a", array []), ("b", u16 1)]) = mergeDeep e (mergeDeep (map [("a", array [bool true])])
      (map [("a", array []), ("b", u16 1)]))) ∧
    ¬ ∀ e : Value, e.WF → mergeDeep (mergeDeep e (map [("a", bool true)])) (map [("a", map [])]) =
      mergeDeep e (mergeDeep (map [("a", bool true)]) (map [("a", map [])])) := by
  constructor
  · refine (merge_assoc_iff (a := map [("a", array [bool true])])
      (b := map [("a", array []), ("b", u16 1)]) (wf_singleton ⟨trivial, trivial⟩) ?_).1.mpr ?_
    · exact ⟨by decide, trivial, trivial, trivial⟩
    · simp [Fits, FitsMap, mapGet]
  · rw [(merge_assoc_iff (a := map [("a", bool true)]) (b := map [("a", map [])])
      (wf_singleton trivial) (wf_singleton ⟨List.Pairwise.nil, trivial⟩)).1]
    simp [Fits, FitsMap, mapGet]

end Value

end MmdbWriter
