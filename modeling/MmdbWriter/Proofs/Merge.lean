import MmdbWriter.Value

/-!
# Merging by key path

What a merge of two values holds at a path of keys, in terms of what the two hold there and on the
way.
-/

namespace MmdbWriter

theorem mapGet_mapInsert {V : Type} (k k' : String) (v : V) : ∀ m : List (String × V),
    mapGet k' (mapInsert k v m) = if k' = k then some v else mapGet k' m
  | [] => rfl
  | (k₁, v₁) :: m => by
    have ih := mapGet_mapInsert k k' v m
    unfold mapInsert
    by_cases hlt : k < k₁
    · rw [if_pos hlt, mapGet]
    · rw [if_neg hlt]
      by_cases heq : k = k₁
      · subst heq
        rw [if_pos rfl, mapGet, mapGet]
        split_ifs <;> rfl
      · rw [if_neg heq, mapGet, mapGet, ih]
        by_cases h : k' = k₁
        · rw [if_pos h, if_pos h, if_neg (fun hk => heq (hk.symm.trans h))]
        · rw [if_neg h, if_neg h]

namespace Value

/-- The value reached by descending maps along the keys. -/
def atPath (v : Value) : List String → Option Value
  | [] => some v
  | k :: p => match v with
    | map m => match mapGet k m with
      | some u => u.atPath p
      | none => none
    | _ => none

/-- Both values hold a map at the path. -/
def BothMaps (e n : Value) (q : List String) : Prop :=
  (∃ m, e.atPath q = some (map m)) ∧ ∃ m, n.atPath q = some (map m)

/-- What a merge holds at a path every step of which is a map on both sides: `e` and `n` are what the
two sides hold there, `r` what the result does. -/
def Joins : (e n r : Option Value) → Prop
  | none, n, r => r = n
  | some e, none, r => r = some e
  | some (array e), some (array n), r => r = some (array (e ++ n))
  | some (map _), some (map _), r => ∃ m, r = some (map m)
  | some _, some n, r => r = some n

theorem atPath_map_cons (m : List (String × Value)) (k : String) (p : List String) :
    (map m).atPath (k :: p) = (mapGet k m).bind (·.atPath p) := by
  rw [atPath]
  cases mapGet k m <;> rfl

theorem wf_of_mapGet {k : String} {v : Value} :
    ∀ {m : List (String × Value)}, WFMap m → mapGet k m = some v → v.WF
  | [], _, h => by cases h
  | (k', v') :: m, hm, h => by
    rw [mapGet] at h
    split_ifs at h
    · cases h
      exact hm.1
    · exact wf_of_mapGet hm.2 h

theorem mapGet_eq_none {k : String} :
    ∀ {m : List (String × Value)}, (∀ a ∈ m.map Prod.fst, k < a) → mapGet k m = none
  | [], _ => rfl
  | (k', v') :: m, h => by
    have hne : k ≠ k' := ne_of_lt (h k' (by simp))
    rw [mapGet, if_neg hne]
    exact mapGet_eq_none fun a ha => h a (by simp [ha])

/-- One key of the merged map: the loop meets each key of the new map once. -/
theorem mapGet_mergeMaps (k : String) : ∀ (n e : List (String × Value)),
    (n.map Prod.fst).Pairwise (· < ·) →
    mapGet k (mergeMaps e n) = match mapGet k n with
      | none => mapGet k e
      | some v => some (match mapGet k e with
        | some prev => mergeDeep prev v
        | none => v)
  | [], e, _ => by rw [mergeMaps]; rfl
  | (k', v') :: n, e, h => by
    obtain ⟨hk', hn⟩ := List.pairwise_cons.mp h
    rw [mergeMaps, mapGet_mergeMaps k n _ hn, mapGet_mapInsert, mapGet]
    by_cases hk : k = k'
    · subst hk
      have hnew : (if k = k then some v' else none) = some v' := if_pos rfl
      rw [mapGet_eq_none hk', hnew]
      exact if_pos rfl
    · rw [if_neg hk, if_neg hk]

theorem joins_none (e : Option Value) : Joins e none e := by
  cases e <;> rfl

/-- At the root the two sides meet with their kinds. -/
theorem joins_mergeDeep (e n : Value) : Joins (some e) (some n) (some (mergeDeep e n)) := by
  cases n <;> cases e <;> simp [Joins, mergeDeep]

theorem BothMaps.nil {e n : Value} (h : BothMaps e n []) : ∃ a b, e = map a ∧ n = map b := by
  obtain ⟨⟨a, ha⟩, b, hb⟩ := h
  exact ⟨a, b, Option.some.inj ha, Option.some.inj hb⟩

theorem bothMaps_cons {a b : List (String × Value)} {k : String} {u v : Value}
    (hu : mapGet k a = some u) (hv : mapGet k b = some v) (q : List String) :
    BothMaps (map a) (map b) (k :: q) ↔ BothMaps u v q := by
  unfold BothMaps
  rw [atPath_map_cons, atPath_map_cons, hu, hv]
  rfl

/-- Below a root where one side is no map the merge is the new side. -/
theorem atPath_mergeDeep_of_not_bothMaps {e n : Value} (h : ¬ BothMaps e n []) (k : String)
    (p : List String) : (mergeDeep e n).atPath (k :: p) = n.atPath (k :: p) := by
  cases n with
  | map b =>
    cases e with
    | map a => exact absurd ⟨⟨a, rfl⟩, b, rfl⟩ h
    | _ => rfl
  | array b => cases e <;> rfl
  | _ => rfl

theorem joins_at : ∀ (p : List String) (e n : Value), n.WF →
    (∀ q, q <+: p → q ≠ p → BothMaps e n q) → Joins (e.atPath p) (n.atPath p) ((mergeDeep e n).atPath p)
  | [], e, n, _, _ => joins_mergeDeep e n
  | k :: p, e, n, hwf, hall => by
    obtain ⟨a, b, rfl, rfl⟩ := (hall [] List.nil_prefix (by simp)).nil
    rw [mergeDeep, atPath_map_cons, atPath_map_cons, atPath_map_cons, mapGet_mergeMaps k b a hwf.1]
    cases hv : mapGet k b with
    | none => exact joins_none _
    | some v =>
      cases hu : mapGet k a with
      | none => exact rfl
      | some u =>
        refine joins_at p u v (wf_of_mapGet hwf.2 hv) fun q hq hne => ?_
        refine (bothMaps_cons hu hv q).mp (hall (k :: q) ?_ ?_)
        · exact List.cons_prefix_cons.mpr ⟨rfl, hq⟩
        · simpa using hne

theorem atPath_mergeDeep_below : ∀ (q p : List String) (e n : Value), n.WF → q <+: p → q ≠ p →
    (∀ q', q' <+: q → q' ≠ q → BothMaps e n q') → ¬ BothMaps e n q →
    (mergeDeep e n).atPath p = if (n.atPath q).isSome then n.atPath p else e.atPath p
  | [], p, e, n, _, _, hne, _, hnot => by
    cases p with
    | nil => exact absurd rfl hne
    | cons k p => exact atPath_mergeDeep_of_not_bothMaps hnot k p
  | k :: q, p, e, n, hwf, hpre, hne, hall, hnot => by
    obtain ⟨p, rfl⟩ : ∃ t, p = k :: (q ++ t) := by
      obtain ⟨t, rfl⟩ := hpre
      exact ⟨t, rfl⟩
    obtain ⟨a, b, rfl, rfl⟩ := (hall [] List.nil_prefix (by simp)).nil
    rw [mergeDeep, atPath_map_cons, atPath_map_cons, atPath_map_cons, atPath_map_cons, mapGet_mergeMaps k b a hwf.1]
    cases hv : mapGet k b with
    | none => rfl
    | some v =>
      cases hu : mapGet k a with
      | none =>
        cases q with
        | nil => rfl
        | cons k' q =>
          obtain ⟨⟨m, hm⟩, -⟩ := hall [k] (by simp) (by simp)
          rw [atPath_map_cons, hu] at hm
          cases hm
      | some u =>
        refine atPath_mergeDeep_below q (q ++ p) u v (wf_of_mapGet hwf.2 hv) ⟨p, rfl⟩ ?_ ?_ ?_
        · simpa using hne
        · intro q' hq' hne'
          refine (bothMaps_cons hu hv q').mp (hall (k :: q') ?_ ?_)
          · exact List.cons_prefix_cons.mpr ⟨rfl, hq'⟩
          · simpa using hne'
        · exact fun h => hnot ((bothMaps_cons hu hv q).mpr h)

theorem mapGet_foldl_mapInsert (k : String) : ∀ (n e : List (String × Value)),
    (n.map Prod.fst).Pairwise (· < ·) →
    mapGet k (n.foldl (fun merged kv => mapInsert kv.1 kv.2 merged) e) =
      (mapGet k n).or (mapGet k e)
  | [], e, _ => rfl
  | (k', v') :: n, e, h => by
    obtain ⟨hk', hn⟩ := List.pairwise_cons.mp h
    rw [List.foldl_cons, mapGet_foldl_mapInsert k n _ hn, mapGet_mapInsert, mapGet]
    by_cases hk : k = k'
    · subst hk
      rw [mapGet_eq_none hk', if_pos rfl, if_pos rfl]
      rfl
    · rw [if_neg hk, if_neg hk]

/-- The top-level merge of two maps: a key of the new one decides everything below it. -/
theorem atPath_mergeTopLevel {a b : List (String × Value)} (h : (map b).WF) (k : String)
    (p : List String) : (mergeTopLevel (map a) (map b)).atPath (k :: p) =
      if ((map b).atPath [k]).isSome then (map b).atPath (k :: p)
      else (map a).atPath (k :: p) := by
  rw [mergeTopLevel, atPath_map_cons, mapGet_foldl_mapInsert k b a h.1, atPath_map_cons,
    atPath_map_cons, atPath_map_cons]
  cases mapGet k b <;> rfl

theorem mergeTopLevel_of_not_bothMaps {e n : Value} (h : ¬ BothMaps e n []) :
    mergeTopLevel e n = n := by
  cases e with
  | map a =>
    cases n with
    | map b => exact absurd ⟨⟨a, rfl⟩, b, rfl⟩ h
    | _ => rfl
  | _ => rfl

/-- The merges by key path: where both sides are maps all the way they join, below the first place
where one is not the new side decides if it reaches that place and the old one if not. The top-level
merge does so from the first key on, and joins nothing but maps. -/
theorem merge_at_path (e n : Value) (hn : n.WF) :
    (∀ p, (∀ q, q <+: p → q ≠ p → BothMaps e n q) →
      Joins (e.atPath p) (n.atPath p) ((mergeDeep e n).atPath p)) ∧
    (∀ p q, q <+: p → q ≠ p → (∀ q', q' <+: q → q' ≠ q → BothMaps e n q') → ¬ BothMaps e n q →
      (mergeDeep e n).atPath p = if (n.atPath q).isSome then n.atPath p else e.atPath p) ∧
    (BothMaps e n [] → (∃ m, mergeTopLevel e n = map m) ∧ ∀ k p,
      (mergeTopLevel e n).atPath (k :: p) =
        if (n.atPath [k]).isSome then n.atPath (k :: p) else e.atPath (k :: p)) ∧
    (¬ BothMaps e n [] → mergeTopLevel e n = n) := by
  refine ⟨fun p => joins_at p e n hn, fun p q => atPath_mergeDeep_below q p e n hn, fun h => ?_,
    mergeTopLevel_of_not_bothMaps⟩
  obtain ⟨a, b, rfl, rfl⟩ := h.nil
  exact ⟨⟨_, rfl⟩, atPath_mergeTopLevel hn⟩

theorem merge_at_path_nested :
    (mergeDeep (map [("a", map [("x", u16 1), ("y", array [bool true])]), ("b", bytes [])])
      (map [("a", map [("y", array [bool false]), ("z", u16 2)])])).atPath ["a", "y"] =
      some (array [bool true, bool false]) := by
  have h := (merge_at_path
    (map [("a", map [("x", u16 1), ("y", array [bool true])]), ("b", bytes [])])
    (map [("a", map [("y", array [bool false]), ("z", u16 2)])])
    ⟨by decide, ⟨by decide, ⟨trivial, trivial⟩, trivial, trivial⟩, trivial⟩).1 ["a", "y"] (fun q hq hne => by
      obtain rfl | rfl : q = [] ∨ q = ["a"] := by
        have h := (List.mem_inits _ _).mpr hq
        simp only [List.inits, List.map, List.mem_cons, List.not_mem_nil, or_false] at h
        exact h.imp_right fun h => h.resolve_right hne
      · exact ⟨⟨_, rfl⟩, _, rfl⟩
      · exact ⟨⟨_, rfl⟩, _, rfl⟩)
  exact h

/-- Two arrays at the root do not join: the top-level merge takes the new one. -/
theorem not_joins_mergeTopLevel :
    ¬ Joins ((array [bool true]).atPath []) ((array [bool false]).atPath [])
      ((mergeTopLevel (array [bool true]) (array [bool false])).atPath []) := by
  simp [Joins, atPath, mergeTopLevel]

end Value

end MmdbWriter
