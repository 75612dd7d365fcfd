import MmdbWriter.Lib.Repeats
import MmdbWriter.Proofs.Orders

/-!
# Importing a source again

A merge of a value whose arrays are empty along its key paths can be made again, and again after other
merges: what it did before is left by none of them. So a source of such inserts that is imported again,
from the start after an import that was broken off or in another order, leaves the data and the file of
one import.
-/

namespace MmdbWriter

open BitTrie (leaf node)
open Repeats (Absorbs)

namespace Value

mutual

/-- The arrays that key paths lead to are empty. -/
def ItemFree : Value → Prop
  | map m => ItemFreeMap m
  | array items => items = []
  | _ => True

def ItemFreeMap : List (String × Value) → Prop
  | [] => True
  | (_, v) :: m => ItemFree v ∧ ItemFreeMap m

end

theorem itemFree_of_mem : ∀ {m : List (String × Value)}, ItemFreeMap m → ∀ e ∈ m, e.2.ItemFree
  | _ :: _, h, _, he => by
    rcases List.mem_cons.mp he with rfl | he
    · exact h.1
    · exact itemFree_of_mem h.2 _ he

section Converse

mutual

/-- A value that its merge with itself leaves as it is has no items to add to. -/
theorem itemFree_of_mergeDeep_self : ∀ {x : Value}, x.WF → mergeDeep x x = x → x.ItemFree
  | map n, hx, h => itemFree_of_self hx.2 fun e he => by
      have heq : mergeMaps n n = n := map.inj h
      have hkey := congrArg (mapGet e.1) heq
      rw [mapGet_mergeMaps e.1 n n hx.1, mapGet_of_mem hx he] at hkey
      exact Option.some.inj hkey
  | array l, _, h => by
    have hlen := congrArg List.length (array.inj h)
    rw [List.length_append] at hlen
    exact List.length_eq_zero_iff.mp (by omega)
  | string _, _, _ | double _, _, _ | bytes _, _, _ | u16 _, _, _ | u32 _, _, _ => trivial
  | i32 _, _, _ | u64 _, _, _ | u128 _, _, _ | bool _, _, _ | float _, _, _ => trivial

theorem itemFree_of_self : ∀ {m : List (String × Value)}, WFMap m →
    (∀ e ∈ m, mergeDeep e.2 e.2 = e.2) → ItemFreeMap m
  | [], _, _ => trivial
  | e :: _, hm, h => ⟨itemFree_of_mergeDeep_self hm.1 (h e List.mem_cons_self),
      itemFree_of_self hm.2 fun e he => h e (List.mem_cons_of_mem _ he)⟩

end

end Converse

end Value

namespace Writer

open Value (mergeMaps ItemFree map array string double bytes u16 u32 i32 u64 u128 float map_ext
  wf_of_mapGet)

/-- How a strategy merges below the keys of a map. -/
def below : MergeStrategy → MergeStrategy
  | .deepMerge => .deepMerge
  | .topLevelMerge | .replace => .replace

/-- The entries an address has: none where it has no map. -/
def entries : Option Value → List (String × Value)
  | some (.map m) => m
  | _ => []

/-- The items an address has: none where it has no array. -/
def items : Option Value → List Value
  | some (.array l) => l
  | _ => []

/-- What an address has, if anything, is one of the values the source's type holds. -/
def WFAt (old : Option Value) : Prop := ∀ v, old = some v → v.WF

theorem WFAt.entries {old : Option Value} (h : WFAt old) : (map (entries old)).WF := by
  rcases old with _ | v
  · exact ⟨List.Pairwise.nil, trivial⟩
  · cases v with
    | map m => exact h _ rfl
    | _ => exact ⟨List.Pairwise.nil, trivial⟩

theorem mem_of_mapGet {k : String} {v : Value} : ∀ {m : List (String × Value)},
    mapGet k m = some v → (k, v) ∈ m
  | (k', v') :: m, h => by
    rw [mapGet] at h
    split_ifs at h with hk
    · cases h
      rw [hk]
      exact List.mem_cons_self
    · exact List.mem_cons_of_mem _ (mem_of_mapGet h)

theorem WFAt.mapGet {m : List (String × Value)} (h : (map m).WF) (k : String) : WFAt (mapGet k m) :=
  fun _ hv => wf_of_mapGet h.2 hv

theorem wfAt_mergeOp {strategy : MergeStrategy} {x : Value} (hx : x.WF) {old : Option Value}
    (h : WFAt old) : WFAt (mergeOp strategy x old) := fun _ hv => wf_mergeOp hx h hv

/-- A value that is no map, and no array merged deep, takes the place of what was there. -/
theorem mergeOp_const {strategy : MergeStrategy} {x : Value} (hmap : ∀ m, x ≠ map m)
    (harr : strategy = .deepMerge → ∀ l, x ≠ array l) (old : Option Value) :
    mergeOp strategy x old = some x := by
  cases strategy with
  | replace => rfl
  | topLevelMerge =>
    rcases old with _ | e
    · rfl
    · refine congrArg some (Value.mergeTopLevel_of_not_bothMaps fun h => ?_)
      obtain ⟨-, m, -, hm⟩ := h.nil
      exact hmap m hm
  | deepMerge =>
    rcases old with _ | e
    · rfl
    · cases x with
      | map m => exact absurd rfl (hmap m)
      | array l => exact absurd rfl (harr rfl l)
      | _ => rfl

/-- Merging a map in is merging its entries into those that are there, each as the strategy merges
below a key. -/
theorem exists_mergeOp_map {strategy : MergeStrategy} (hs : strategy ≠ .replace)
    {n : List (String × Value)} (hn : (map n).WF) {old : Option Value} (h : WFAt old) :
    ∃ m, mergeOp strategy (map n) old = some (map m) ∧ (map m).WF ∧
      (∀ k, mapGet k n = none → mapGet k m = mapGet k (entries old)) ∧
      ∀ k v, mapGet k n = some v →
        mapGet k m = mergeOp (below strategy) v (mapGet k (entries old)) := by
  have hnew : (∀ l, old ≠ some (map l)) → mergeOp strategy (map n) old = some (map n) ∧
      entries old = [] := fun hno => by
    rcases old with _ | e
    · cases strategy <;> exact ⟨rfl, rfl⟩
    · cases e with
      | map l => exact absurd rfl (hno l)
      | _ => cases strategy <;> exact ⟨rfl, rfl⟩
  by_cases hmap : ∃ l, old = some (map l)
  · obtain ⟨l, rfl⟩ := hmap
    cases strategy with
    | replace => exact absurd rfl hs
    | topLevelMerge =>
      refine ⟨_, rfl, Value.wf_mergeTopLevel (h _ rfl) hn, fun k hk => ?_, fun k v hk => ?_⟩
      · rw [Value.mapGet_foldl_mapInsert k n _ hn.1, hk]
        rfl
      · rw [Value.mapGet_foldl_mapInsert k n _ hn.1, hk]
        rfl
    | deepMerge =>
      refine ⟨mergeMaps l n, rfl, Value.wf_mergeMaps (h _ rfl) hn.2, fun k hk => ?_, fun k v hk => ?_⟩
      · rw [Value.mapGet_mergeMaps k n _ hn.1, hk]
        rfl
      · rw [Value.mapGet_mergeMaps k n _ hn.1, hk]
        show some _ = mergeOp .deepMerge v (mapGet k l)
        cases mapGet k l <;> rfl
  · obtain ⟨hval, hent⟩ := hnew fun l hl => hmap ⟨l, hl⟩
    refine ⟨n, hval, hn, fun k hk => ?_, fun k v hk => ?_⟩
    · rw [hent, hk]
      rfl
    · rw [hent, hk]
      cases strategy <;> rfl

theorem mergeOp_map_congr {strategy : MergeStrategy} {n : List (String × Value)} (hn : (map n).WF)
    {old old' : Option Value} (h : WFAt old) (h' : WFAt old') (heq : entries old = entries old') :
    mergeOp strategy (map n) old = mergeOp strategy (map n) old' := by
  by_cases hs : strategy = .replace
  · subst hs
    rfl
  · obtain ⟨m, hm, hwf, hnone, hsome⟩ := exists_mergeOp_map hs hn h
    obtain ⟨m', hm', hwf', hnone', hsome'⟩ := exists_mergeOp_map hs hn h'
    rw [hm, hm', map_ext hwf hwf' fun k => ?_]
    cases hk : mapGet k n with
    | none => rw [hnone k hk, hnone' k hk, heq]
    | some v => rw [hsome k v hk, hsome' k v hk, heq]

theorem mergeOp_nil (old : Option Value) :
    mergeOp .deepMerge (array []) old = some (array (items old)) := by
  rcases old with _ | e
  · rfl
  · cases e with
    | array l => exact congrArg (some ∘ array) (List.append_nil l)
    | _ => rfl

/-- What a merge leaves of the items depends on those alone. -/
theorem items_mergeOp (strategy : MergeStrategy) (y : Value) (old : Option Value) :
    items (mergeOp strategy y (some (array (items old)))) = items (mergeOp strategy y old) := by
  by_cases hmap : ∃ q, y = map q
  · obtain ⟨q, rfl⟩ := hmap
    cases strategy <;> rcases old with _ | e <;> first | rfl | (cases e <;> rfl)
  · have hno : ∀ q, y ≠ map q := fun q hq => hmap ⟨q, hq⟩
    by_cases harr : strategy = .deepMerge ∧ ∃ l, y = array l
    · obtain ⟨rfl, l, rfl⟩ := harr
      rcases old with _ | e
      · rfl
      · cases e <;> rfl
    · have hnot : strategy = .deepMerge → ∀ l, y ≠ array l := fun hs l hl => harr ⟨hs, l, hl⟩
      rw [mergeOp_const hno hnot, mergeOp_const hno hnot]

/-- The merge of the value can be made again: a deep one is one of empty arrays. -/
def Repeatable (strategy : MergeStrategy) (x : Value) : Prop := strategy = .deepMerge → ItemFree x

theorem repeatable_below {strategy : MergeStrategy} {n : List (String × Value)}
    (h : Repeatable strategy (map n)) : ∀ e ∈ n, Repeatable (below strategy) e.2 := fun e he hs => by
  cases strategy with
  | deepMerge => exact Value.itemFree_of_mem (h rfl) e he
  | topLevelMerge | replace => cases hs

/-- The merge of a value by a strategy. -/
def mergeOf (c : MergeStrategy × Value) : Option Value → Option Value := mergeOp c.1 c.2

/-- The merge leaves nothing of what it did before, made again at once or after another merge. -/
abbrev MergeAbsorbs (strategy : MergeStrategy) (x : Value) : Prop :=
  Absorbs mergeOf WFAt (fun c => c.2.WF) (strategy, x)

theorem mergeAbsorbs_of_const {strategy : MergeStrategy} {x : Value}
    (h : ∀ old, mergeOp strategy x old = some x) : MergeAbsorbs strategy x :=
  ⟨fun old _ => (h _).trans (h old).symm, fun _ _ _ _ => (h _).trans (h _).symm⟩

theorem mergeAbsorbs_nil : MergeAbsorbs .deepMerge (array []) where
  self old _ := by
    show mergeOp _ _ (mergeOp _ _ old) = mergeOp _ _ old
    rw [mergeOp_nil, mergeOp_nil]
    rfl
  between c _ old _ := by
    show mergeOp _ _ (mergeOp c.1 c.2 (mergeOp _ _ old)) = mergeOp _ _ (mergeOp c.1 c.2 old)
    rw [mergeOp_nil old, mergeOp_nil, mergeOp_nil, items_mergeOp]

/-- What a merge leaves of the entries depends on those alone, and on nothing if it merges no map. -/
theorem entries_mergeOp {strategy : MergeStrategy} {y : Value}
    (h : strategy = .replace ∨ ∀ q, y ≠ map q) (old old' : Option Value) :
    entries (mergeOp strategy y old) = entries (mergeOp strategy y old') := by
  have hconst : strategy ≠ .replace → ∀ old, entries (mergeOp strategy y old) = [] := fun hs old => by
    have hno := h.resolve_left hs
    by_cases harr : strategy = .deepMerge ∧ ∃ l, y = array l
    · obtain ⟨rfl, l, rfl⟩ := harr
      rcases old with _ | e
      · rfl
      · cases e <;> rfl
    · rw [mergeOp_const hno fun hs l hl => harr ⟨hs, l, hl⟩]
      cases y with
      | map q => exact absurd rfl (hno q)
      | _ => rfl
  by_cases hs : strategy = .replace
  · subst hs
    rfl
  · rw [hconst hs, hconst hs]

section Maps

variable {strategy : MergeStrategy} {n : List (String × Value)} (hn : (map n).WF)
  (h : ∀ k v, mapGet k n = some v → MergeAbsorbs (below strategy) v)
include hn h

/-- The merge of a map can be made again where those of its entries can, as the strategy merges below a
key. -/
theorem mergeOp_map_self (hs : strategy ≠ .replace) {old : Option Value} (hold : WFAt old) :
    mergeOp strategy (map n) (mergeOp strategy (map n) old) = mergeOp strategy (map n) old := by
  have hat : WFAt (mergeOp strategy (map n) old) := wfAt_mergeOp hn hold
  obtain ⟨m, hm, hwf, hnone, hsome⟩ := exists_mergeOp_map hs hn hold
  rw [hm] at hat ⊢
  obtain ⟨m', hm', hwf', hnone', hsome'⟩ := exists_mergeOp_map hs hn hat
  rw [hm', map_ext hwf' hwf fun k => ?_]
  cases hk : mapGet k n with
  | none => exact hnone' k hk
  | some v =>
    rw [hsome' k v hk]
    show mergeOp (below strategy) v (mapGet k m) = _
    rw [hsome k v hk]
    exact (h k v hk).self _ (WFAt.mapGet hold.entries k)

theorem mergeOp_map_between (hs : strategy ≠ .replace) {strategy' : MergeStrategy}
    (hs' : strategy' ≠ .replace) {q : List (String × Value)} (hq : (map q).WF) {old : Option Value}
    (hold : WFAt old) :
    mergeOp strategy (map n) (mergeOp strategy' (map q) (mergeOp strategy (map n) old)) =
      mergeOp strategy (map n) (mergeOp strategy' (map q) old) := by
  have hat : WFAt (mergeOp strategy (map n) old) := wfAt_mergeOp hn hold
  obtain ⟨m, hm, -, hnone, hsome⟩ := exists_mergeOp_map hs hn hold
  have hat' : WFAt (mergeOp strategy' (map q) (mergeOp strategy (map n) old)) := wfAt_mergeOp hq hat
  have hatq : WFAt (mergeOp strategy' (map q) old) := wfAt_mergeOp hq hold
  rw [hm] at hat hat' ⊢
  obtain ⟨r, hr, -, hrnone, hrsome⟩ := exists_mergeOp_map hs' hq hat
  obtain ⟨r', hr', -, hrnone', hrsome'⟩ := exists_mergeOp_map hs' hq hold
  rw [hr] at hat' ⊢
  rw [hr'] at hatq ⊢
  obtain ⟨f, hf, hwf, hfnone, hfsome⟩ := exists_mergeOp_map hs hn hat'
  obtain ⟨f', hf', hwf', hfnone', hfsome'⟩ := exists_mergeOp_map hs hn hatq
  rw [hf, hf', map_ext hwf hwf' fun k => ?_]
  have hm' : mapGet k (entries (some (map m))) = mapGet k m := rfl
  cases hk : mapGet k n with
  | none =>
    rw [hfnone k hk, hfnone' k hk]
    show mapGet k r = mapGet k r'
    cases hkq : mapGet k q with
    | none => rw [hrnone k hkq, hrnone' k hkq, hm', hnone k hk]
    | some u => rw [hrsome k u hkq, hrsome' k u hkq, hm', hnone k hk]
  | some v =>
    rw [hfsome k v hk, hfsome' k v hk]
    show mergeOp _ v (mapGet k r) = mergeOp _ v (mapGet k r')
    have hentry := WFAt.mapGet hold.entries k
    cases hkq : mapGet k q with
    | none =>
      rw [hrnone k hkq, hrnone' k hkq, hm', hsome k v hk]
      exact (h k v hk).self _ hentry
    | some u =>
      rw [hrsome k u hkq, hrsome' k u hkq, hm', hsome k v hk]
      exact (h k v hk).between (below strategy', u) (wf_of_mapGet hq.2 hkq) _ hentry

theorem mergeAbsorbs_map : MergeAbsorbs strategy (map n) := by
  by_cases hs : strategy = .replace
  · subst hs
    exact mergeAbsorbs_of_const fun _ => rfl
  refine ⟨fun old hold => mergeOp_map_self hn h hs hold, ?_⟩
  rintro ⟨strategy', y⟩ hy old hold
  show mergeOp _ _ (mergeOp strategy' y (mergeOp _ _ old)) = mergeOp _ _ (mergeOp strategy' y old)
  by_cases hmap : strategy' = .replace ∨ ∀ q, y ≠ map q
  · exact mergeOp_map_congr hn (wfAt_mergeOp hy (wfAt_mergeOp hn hold)) (wfAt_mergeOp hy hold)
      (entries_mergeOp hmap _ _)
  · obtain ⟨hs', hq⟩ := not_or.mp hmap
    obtain ⟨q, hq⟩ := not_forall.mp hq
    obtain rfl : y = map q := not_not.mp hq
    exact mergeOp_map_between hn h hs hs' hy hold

end Maps

mutual

/-- The merge of a value that can be made again leaves nothing of what it did before. -/
theorem mergeAbsorbs_of_repeatable : ∀ (x : Value) {strategy : MergeStrategy}, x.WF →
    Repeatable strategy x → MergeAbsorbs strategy x
  | map n, _, hx, h => mergeAbsorbs_map hx fun k v hv =>
      mergeAbsorbs_of_mem n hx.2 (repeatable_below h) (k, v) (mem_of_mapGet hv)
  | array l, strategy, _, h => by
    by_cases hs : strategy = .deepMerge
    · subst hs
      obtain rfl : l = [] := h rfl
      exact mergeAbsorbs_nil
    · exact mergeAbsorbs_of_const (mergeOp_const (by simp) fun hd => absurd hd hs)
  | string _, _, _, _ | double _, _, _, _ | bytes _, _, _, _ | u16 _, _, _, _ =>
    mergeAbsorbs_of_const (mergeOp_const (by simp) (by simp))
  | u32 _, _, _, _ | i32 _, _, _, _ | u64 _, _, _, _ | u128 _, _, _, _ =>
    mergeAbsorbs_of_const (mergeOp_const (by simp) (by simp))
  | .bool _, _, _, _ | float _, _, _, _ =>
    mergeAbsorbs_of_const (mergeOp_const (by simp) (by simp))

theorem mergeAbsorbs_of_mem : ∀ (n : List (String × Value)) {strategy : MergeStrategy},
    Value.WFMap n → (∀ e ∈ n, Repeatable strategy e.2) → ∀ e ∈ n, MergeAbsorbs strategy e.2
  | (_, v) :: n, _, hn, h, e, he => by
    rcases List.mem_cons.mp he with rfl | he'
    · exact mergeAbsorbs_of_repeatable v hn.1 (h _ he)
    · exact mergeAbsorbs_of_mem n hn.2 (fun e he => h e (List.mem_cons_of_mem _ he)) e he'

end

/-- A merge can be made twice at no effect, and then again after any other merge, exactly where it is
no deep merge of a value with items along its key paths. -/
theorem repeatable_iff {strategy : MergeStrategy} {x : Value} (hx : x.WF) :
    ((∀ old, WFAt old → mergeOp strategy x (mergeOp strategy x old) = mergeOp strategy x old) ↔
      Repeatable strategy x) ∧
    (Repeatable strategy x → ∀ strategy' (y : Value), y.WF → ∀ old, WFAt old →
      mergeOp strategy x (mergeOp strategy' y (mergeOp strategy x old)) =
        mergeOp strategy x (mergeOp strategy' y old)) := by
  refine ⟨⟨fun h hs => ?_, fun h => (mergeAbsorbs_of_repeatable x hx h).self⟩,
    fun h strategy' y hy => (mergeAbsorbs_of_repeatable x hx h).between (strategy', y) hy⟩
  subst hs
  exact Value.itemFree_of_mergeDeep_self hx (Option.some.inj (h none fun _ hv => by cases hv))

/-- A name can be merged in again and a list of names cannot. -/
theorem repeatable_iff_names :
    (∀ old, WFAt old → mergeOp .deepMerge (map [("en", string "Oslo")])
      (mergeOp .deepMerge (map [("en", string "Oslo")]) old) =
        mergeOp .deepMerge (map [("en", string "Oslo")]) old) ∧
    ¬ ∀ old, WFAt old → mergeOp .deepMerge (map [("names", array [string "Oslo"])])
      (mergeOp .deepMerge (map [("names", array [string "Oslo"])]) old) =
        mergeOp .deepMerge (map [("names", array [string "Oslo"])]) old := by
  have hname : (map [("en", string "Oslo")]).WF := Value.wf_singleton trivial
  have hnames : (map [("names", array [string "Oslo"])]).WF := Value.wf_singleton ⟨trivial, trivial⟩
  constructor
  · exact (repeatable_iff hname).1.mpr fun _ => ⟨trivial, trivial⟩
  · rw [(repeatable_iff hnames).1]
    intro h
    cases (h rfl).1

end Writer

/-- The insert puts a value in or merges one in. -/
def Insert.Merges (i : Insert) : Prop :=
  ∃ strategy v, i.op = Writer.mergeOp strategy v ∧ v.WF

/-- The insert does so with a value that can be merged in again. -/
def Insert.CanRepeat (i : Insert) : Prop :=
  ∃ strategy v, i.op = Writer.mergeOp strategy v ∧ v.WF ∧ Writer.Repeatable strategy v

theorem Insert.CanRepeat.merges {i : Insert} : i.CanRepeat → i.Merges
  | ⟨strategy, v, hop, hv, _⟩ => ⟨strategy, v, hop, hv⟩

namespace Writer

theorem keeps_merges : Repeats.Keeps Insert.op WFAt Insert.Merges := by
  rintro i ⟨strategy, v, hop, hv⟩ old hold
  rw [hop]
  exact wfAt_mergeOp hv hold

theorem absorbs_canRepeat {i : Insert} (h : i.CanRepeat) : Absorbs Insert.op WFAt Insert.Merges i := by
  obtain ⟨strategy, x, hop, hx, hrep⟩ := h
  have habs := mergeAbsorbs_of_repeatable x hx hrep
  constructor
  · rw [hop]
    exact habs.self
  · rintro j ⟨strategy', y, hop', hy⟩
    rw [hop, hop']
    exact habs.between (strategy', y) hy

variable [Ipnet]

/-- A source imported again leaves what it leaves imported once, after the other sources: in a writer
of any history of well-formed values, whatever part of it was imported before them, in whatever order
and however often. -/
theorem sameAfter_reimport {b : WriterBuilder} {w₀ : Writer} (hb : b.build = .ok w₀)
    {calls : List Call} (hcalls : ∀ c ∈ calls, c.Keeps Value.WF)
    (hno : .error .panic ∉ (run calls w₀).1) {made others source : List Insert}
    (hmade : made ⊆ source) (hsource : ∀ i ∈ source, i.CanRepeat) (hothers : ∀ i ∈ others, i.Merges)
    (hlim : RunInLimits ((made ++ others ++ source).map .insert) (run calls w₀).2)
    (hlim' : RunInLimits ((others ++ source).map .insert) (run calls w₀).2) :
    (run calls w₀).2.SameAfter (made ++ others ++ source) (others ++ source) := by
  have hw : (run calls w₀).2.Reachable := ⟨b, w₀, calls, hb, hno, rfl⟩
  have hvalues : ∀ ip v, (run calls w₀).2.get ip = .ok (some v) → v.WF := fun ip v hget =>
    forall_of_get (forall_run hcalls (forall_build hb)) hget
  generalize (run calls w₀).2 = w at *
  obtain ⟨l, r, h⟩ := hw.inv
  refine hw.sameAfter h hlim hlim' fun ip q hq => ?_
  rw [accepted_eq_filter _ h (neverFull_of_limits hlim),
    accepted_eq_filter _ h (neverFull_of_limits hlim')]
  have hold : WFAt ((node false l r).eval q).value := fun u hu =>
    hvalues ip u (by rw [h.get hq, hu])
  let covering : List Insert → List Insert := fun inserts =>
    (inserts.filter fun i => w.Accepts i.net).filter fun i => i.net.Covers w.ipVersion ip
  have hmem : ∀ {inserts i}, i ∈ covering inserts → i ∈ inserts := fun hi =>
    List.mem_of_mem_filter (List.mem_of_mem_filter hi)
  have hsub : covering made ⊆ covering source := List.filter_subset _ (List.filter_subset _ hmade)
  unfold foldOps
  simp only [List.filter_append, List.foldl_append]
  exact Repeats.runAll_of_subset keeps_merges (fun i hi => (hsource i (hmem hi)).merges)
    (fun i hi => absorbs_canRepeat (hsource i (hmem hi))) (fun i hi => hothers i (hmem hi)) hsub hold

omit [Ipnet] in
/-- Cities that were merged in before the traits of a network can be imported again after them. -/
theorem sameAfter_reimport_city :
    let _ := Ipnet.std
    let wide : IpNet := .v4 ⟨0x01000000, 8, by decide⟩
    let net : IpNet := .v4 ⟨0x01020000, 16, by decide⟩
    let city : Insert := .merged wide (.map [("city", .string "Oslo")]) .deepMerge
    let home : Insert := .value net (.map [("city", .string "Bergen")])
    let traits : Insert := .merged net (.map [("traits", .array [.string "isp"])]) .deepMerge
    ∃ w : Writer, ({ databaseType := "City", ipVersion := .v4 } : WriterBuilder).build = .ok w ∧
      w.SameAfter ([home, city] ++ [traits] ++ [city, home]) ([traits] ++ [city, home]) := by
  intro _ wide net city home traits
  let b : WriterBuilder := { databaseType := "City", ipVersion := .v4 }
  let w₀ : Writer := { toWriterBuilder := b, tree := Tree.new, pool := ValuePool.new }
  have hb : b.build = .ok w₀ := rfl
  have hcity : Value.WF (.map [("city", .string "Oslo")]) := Value.wf_singleton trivial
  have hhome : Value.WF (.map [("city", .string "Bergen")]) := Value.wf_singleton trivial
  have htraits : Value.WF (.map [("traits", .array [.string "isp"])]) :=
    Value.wf_singleton ⟨trivial, trivial⟩
  have hrep : ∀ i ∈ [city, home], i.CanRepeat := fun i hi => by
    rcases List.mem_cons.mp hi with rfl | hi
    · exact ⟨.deepMerge, _, rfl, hcity, fun _ => ⟨trivial, trivial⟩⟩
    · rw [List.mem_singleton.mp hi]
      exact ⟨.replace, _, rfl, hhome, fun hs => by cases hs⟩
  have hother : ∀ i ∈ [traits], i.Merges := fun i hi => by
    rw [List.mem_singleton.mp hi]
    exact ⟨.deepMerge, _, rfl, htraits⟩
  have hmade : [home, city] ⊆ [city, home] := by simp
  have hcalls : ∀ c ∈ ([] : List Call), c.Keeps Value.WF := by simp
  have hrun : (run [] w₀).2.SameAfter ([home, city] ++ [traits] ++ [city, home])
      ([traits] ++ [city, home]) := by
    refine sameAfter_reimport hb hcalls (by simp [run]) hmade hrep hother ?_ ?_
    · refine ⟨⟨?_, ?_⟩, ⟨?_, ?_⟩, ⟨?_, ?_⟩, ⟨?_, ?_⟩, ⟨?_, ?_⟩, ?_, ?_⟩ <;> decide +kernel
    · refine ⟨⟨?_, ?_⟩, ⟨?_, ?_⟩, ⟨?_, ?_⟩, ?_, ?_⟩ <;> decide +kernel
  exact ⟨w₀, hb, hrun⟩

end Writer

end MmdbWriter
