import MmdbWriter.Proofs.Batches
import MmdbWriter.Proofs.Failed
import MmdbWriter.Proofs.Provenance
import MmdbWriter.Proofs.SameFile

/-!
# The order of inserts

What a run of inserts leaves is, at each address, the fold of the operations that cover it. So inserts
whose operations commute where they meet can be made in any order, and two merges into one network can
be made at once where the values can.
-/

namespace MmdbWriter

open BitTrie (leaf node)

namespace Writer

variable [Ipnet] {w w' : Writer} {l r : BitTrie (Leaf Value)}

/-- `get` after a run of inserts: a reserved address has no value, another one the fold of the accepted
inserts that cover it. -/
theorem Inv.get_run (h : w.Inv l r) {inserts : List Insert} (hroom : NeverFull inserts w) {ip : IpAddr}
    {q : List Bool} (hq : addrPath w.ipVersion ip = some q) :
    (run (inserts.map .insert) w).2.get ip = if (node false l r).eval q = .reserved then .ok none
      else .ok (foldOps w.ipVersion (accepted inserts w) ip ((node false l r).eval q).value) := by
  obtain ⟨l', r', h', hopt, hval⟩ := Inv.run_value inserts h hroom
  have hver : (run (inserts.map .insert) w).2.ipVersion = w.ipVersion := by rw [hopt]
  have hpaths : (run (inserts.map .insert) w).2.reservedPaths = w.reservedPaths := by rw [hopt]
  have hlen := length_addrPath hq
  rw [h'.get (by rw [hver, hq])]
  split_ifs with hres
  · have hres' : (node false l' r').eval q = .reserved := by
      rw [h'.reserved_iff q (by rw [hver, hlen]), hpaths, ← h.reserved_iff q hlen]
      exact hres
    rw [hres']
    rfl
  · rw [hval ip q hq hres]

/-- The accepted inserts are those that pass the checks of the options. -/
theorem accepted_eq_filter : ∀ (inserts : List Insert) {w : Writer} {l r : BitTrie (Leaf Value)},
    w.Inv l r → NeverFull inserts w →
    accepted inserts w = inserts.filter fun i => w.Accepts i.net
  | [], _, _, _, _, _ => rfl
  | i :: inserts, w, l, r, h, hroom => by
    obtain ⟨l₁, r₁, h₁, hopt, hacc, -⟩ := h.insert_value i hroom.1
    rw [accepted, accepted_eq_filter inserts h₁ hroom.2]
    have hcongr : (inserts.filter fun j => (i.exec w).2.Accepts j.net) =
        inserts.filter fun j => w.Accepts j.net :=
      List.filter_congr fun j _ => by simp only [accepts_congr hopt]
    rw [hcongr]
    by_cases hi : w.Accepts i.net
    · rw [if_pos (hacc.mpr hi), List.filter_cons_of_pos (by simpa using hi)]
    · rw [if_neg (mt hacc.mp hi), List.filter_cons_of_neg (by simpa using hi)]

/-- After a run of inserts `get` is the fold of those that pass the checks and cover the address. -/
theorem Reachable.get_run (hw : w.Reachable) (inserts : List Insert)
    (hlim : RunInLimits (inserts.map .insert) w) {ip : IpAddr} {old : Option Value}
    (hold : w.get ip = .ok old) : (run (inserts.map .insert) w).2.get ip =
      if w.reservedNetworks = .excluded ∧ ReservedAddr w.ipVersion ip then .ok none
      else .ok ((inserts.filter fun i => w.Accepts i.net ∧ i.net.Covers w.ipVersion ip).foldl
        (fun old i => i.op old) old) := by
  obtain ⟨l, r, h⟩ := hw.inv
  have hroom := neverFull_of_limits hlim
  have hfilter : (inserts.filter fun i => w.Accepts i.net ∧ i.net.Covers w.ipVersion ip) =
      (accepted inserts w).filter fun i => i.net.Covers w.ipVersion ip := by
    rw [accepted_eq_filter inserts h hroom, List.filter_filter]
    exact List.filter_congr fun i _ => by simp [and_comm]
  rw [hfilter]
  cases hq : addrPath w.ipVersion ip with
  | none =>
    have hnil : (accepted inserts w).filter (fun i => i.net.Covers w.ipVersion ip) = [] := by
      rw [List.filter_eq_nil_iff]
      intro i hi
      simpa using not_covers_of_accepts (accepts_of_mem_accepted inserts h hroom i hi) hq
    obtain ⟨-, -, -, hopt, -⟩ := Inv.run_value inserts h hroom
    rw [get_of_addrPath_none hq, Except.ok.injEq] at hold
    rw [get_of_addrPath_none (by rw [hopt, hq]), hnil, ← hold, List.foldl_nil, ite_self]
  | some q =>
    have hreserved : (node false l r).eval q = .reserved ↔
        w.reservedNetworks = .excluded ∧ ReservedAddr w.ipVersion ip := by
      rw [h.reserved_iff q (length_addrPath hq)]
      by_cases hex : w.reservedNetworks = .excluded
      · rw [← reservedAddr_iff_path hex hq, and_iff_right hex]
      · simp [WriterBuilder.reservedPaths, hex]
    rw [h.get hq, Except.ok.injEq] at hold
    rw [h.get_run hroom hq, hold]
    simp only [hreserved]
    rfl

theorem Inv.get_run_congr (h : w.Inv l r) {inserts inserts' : List Insert}
    (hroom : NeverFull inserts w) (hroom' : NeverFull inserts' w)
    (hfold : ∀ ip q, addrPath w.ipVersion ip = some q →
      foldOps w.ipVersion (accepted inserts w) ip ((node false l r).eval q).value =
        foldOps w.ipVersion (accepted inserts' w) ip ((node false l r).eval q).value) (ip : IpAddr) :
    (run (inserts.map .insert) w).2.get ip = (run (inserts'.map .insert) w).2.get ip := by
  obtain ⟨-, -, -, hopt, -⟩ := Inv.run_value inserts h hroom
  obtain ⟨-, -, -, hopt', -⟩ := Inv.run_value inserts' h hroom'
  cases hq : addrPath w.ipVersion ip with
  | none =>
    rw [get_of_addrPath_none (by rw [hopt]; exact hq), get_of_addrPath_none (by rw [hopt']; exact hq)]
  | some q => rw [h.get_run hroom hq, h.get_run hroom' hq, hfold ip q hq]

theorem Inv.toBytes_congr {l' r' : BitTrie (Leaf Value)} (h : w.Inv l r) (h' : w'.Inv l' r')
    (hind : w.tree.Indexed) (hind' : w'.tree.Indexed) (hopt : w'.toWriterBuilder = w.toWriterBuilder)
    (hget : ∀ ip, w.get ip = w'.get ip) (hepoch : w.buildEpoch.isSome)
    (hlen : w.tree.nodes.length + 144 < 2 ^ 32) (hlen' : w'.tree.nodes.length + 144 < 2 ^ 32)
    (now now' : SystemTime) : w.toBytes now = w'.toBytes now' :=
  toBytes_eq_of_builtTrie h.models h'.models h.unpinned h'.unpinned h.not_aliased h'.not_aliased hind
    hind' (h.builtTrie_congr h' hopt hget (by omega) (by omega)) hopt hepoch hlen hlen' now now'

/-- The runs leave the same data, and the same file where the time of the build is given. -/
def SameAfter (w : Writer) (inserts inserts' : List Insert) : Prop :=
  (∀ ip, (run (inserts.map .insert) w).2.get ip = (run (inserts'.map .insert) w).2.get ip) ∧
    (w.buildEpoch.isSome → (run (inserts.map .insert) w).2.tree.nodes.length + 144 < 2 ^ 32 →
      (run (inserts'.map .insert) w).2.tree.nodes.length + 144 < 2 ^ 32 → ∀ now now',
      (run (inserts.map .insert) w).2.toBytes now = (run (inserts'.map .insert) w).2.toBytes now')

theorem Reachable.sameAfter (hw : w.Reachable) (h : w.Inv l r) {inserts inserts' : List Insert}
    (hlim : RunInLimits (inserts.map .insert) w) (hlim' : RunInLimits (inserts'.map .insert) w)
    (hfold : ∀ ip q, addrPath w.ipVersion ip = some q →
      foldOps w.ipVersion (accepted inserts w) ip ((node false l r).eval q).value =
        foldOps w.ipVersion (accepted inserts' w) ip ((node false l r).eval q).value) :
    w.SameAfter inserts inserts' := by
  have hroom := neverFull_of_limits hlim
  have hroom' := neverFull_of_limits hlim'
  have hget := h.get_run_congr hroom hroom' hfold
  obtain ⟨l₁, r₁, h₁, hopt, -⟩ := Inv.run_value inserts h hroom
  obtain ⟨l₂, r₂, h₂, hopt', -⟩ := Inv.run_value inserts' h hroom'
  refine ⟨hget, fun hepoch hlen hlen' now now' => ?_⟩
  exact h₁.toBytes_congr h₂ (run_indexed _ w hw.indexed) (run_indexed _ w hw.indexed)
    (hopt'.trans hopt.symm) hget (by rw [hopt]; exact hepoch) hlen hlen' now now'

/-- The inserts can change places: where both cover an address their operations commute. -/
def Commute (ipVersion : IpVersion) (i j : Insert) : Prop :=
  ∀ ip, i.net.Covers ipVersion ip → j.net.Covers ipVersion ip → ∀ old,
    j.op (i.op old) = i.op (j.op old)

/-- Inserts that commute where they meet leave the same data and the same file in any order. -/
theorem sameAfter_perm (hw : w.Reachable) {inserts inserts' : List Insert}
    (hperm : inserts.Perm inserts')
    (hcomm : ∀ i ∈ inserts, ∀ j ∈ inserts, Commute w.ipVersion i j)
    (hlim : RunInLimits (inserts.map .insert) w) (hlim' : RunInLimits (inserts'.map .insert) w) :
    w.SameAfter inserts inserts' := by
  obtain ⟨l, r, h⟩ := hw.inv
  refine hw.sameAfter h hlim hlim' fun ip q hq => ?_
  rw [accepted_eq_filter inserts h (neverFull_of_limits hlim),
    accepted_eq_filter inserts' h (neverFull_of_limits hlim')]
  refine List.Perm.foldl_eq' ((hperm.filter _).filter _) (fun i hi j hj old => ?_) _
  rw [List.mem_filter, decide_eq_true_iff] at hi hj
  exact hcomm i (List.mem_of_mem_filter hi.1) j (List.mem_of_mem_filter hj.1) ip hi.2 hj.2 old

omit [Ipnet] in
/-- Two networks apart from each other can be inserted in either order. -/
theorem sameAfter_perm_apart :
    let _ := Ipnet.std
    let i : Insert := .value (.v4 ⟨0x01000000, 8, by decide⟩) (.string "a")
    let j : Insert := .merged (.v4 ⟨0x02000000, 8, by decide⟩) (.string "b") .deepMerge
    ∃ w : Writer, ({ databaseType := "City", ipVersion := .v4 } : WriterBuilder).build = .ok w ∧
      w.SameAfter [i, j] [j, i] := by
  intro _ i j
  let b : WriterBuilder := { databaseType := "City", ipVersion := .v4 }
  let w : Writer := { toWriterBuilder := b, tree := Tree.new, pool := ValuePool.new }
  have hb : b.build = .ok w := rfl
  have hlim : RunInLimits ([i, j].map .insert) w ∧ RunInLimits ([j, i].map .insert) w := by
    constructor <;> refine ⟨⟨?_, ?_⟩, ⟨?_, ?_⟩, ?_, ?_⟩ <;> decide +kernel
  refine ⟨w, hb, sameAfter_perm (Reachable.of_build hb) (List.Perm.swap j i []) ?_ hlim.1 hlim.2⟩
  have hapart : ∀ ip, ¬ (i.net.Covers .v4 ip ∧ j.net.Covers .v4 ip) := by
    rintro ip ⟨hi, hj⟩
    cases hq : addrPath .v4 ip with
    | none =>
      cases ip with
      | v4 x => cases hq
      | v6 x => cases hi.1
    | some q =>
      have hpi := (covers_iff_path (p := [false, false, false, false, false, false, false, true])
        (by decide +kernel) hq).mp hi
      have hpj := (covers_iff_path (p := [false, false, false, false, false, false, true, false])
        (by decide +kernel) hq).mp hj
      exact absurd (List.prefix_of_prefix_length_le hpi hpj le_rfl) (by decide)
  intro i' hi' j' hj' ip hi hj old
  simp only [List.mem_cons, List.not_mem_nil, or_false] at hi' hj'
  rcases hi' with rfl | rfl <;> rcases hj' with rfl | rfl
  · rfl
  · exact absurd ⟨hi, hj⟩ (hapart ip)
  · exact absurd ⟨hj, hi⟩ (hapart ip)
  · rfl

section Merges

open Value (mergeTopLevel mergeDeep Fits)

/-- The merge of a strategy. -/
def mergeAs (strategy : MergeStrategy) (existing new : Value) : Value :=
  match strategy with
  | .replace => new
  | .topLevelMerge => mergeTopLevel existing new
  | .deepMerge => mergeDeep existing new

/-- The values can be merged before they are merged in. -/
def Joinable (strategy : MergeStrategy) (x y : Value) : Prop :=
  match strategy with
  | .replace => True
  | .topLevelMerge => ∀ n, y = .map n → ∃ m, x = .map m
  | .deepMerge => Fits x y

omit [Ipnet] in
/-- A merge keeps the keys of every map ascending. -/
theorem wf_mergeOp {strategy : MergeStrategy} {x : Value} (hx : x.WF) {old : Option Value}
    (h : ∀ u, old = some u → u.WF) {v : Value} (hv : mergeOp strategy x old = some v) : v.WF := by
  cases strategy with
  | replace =>
    cases hv
    exact hx
  | topLevelMerge =>
    rcases old with _ | e <;> cases hv
    · exact hx
    · exact Value.wf_mergeTopLevel (h e rfl) hx
  | deepMerge =>
    rcases old with _ | e <;> cases hv
    · exact hx
    · exact Value.wf_mergeDeep (h e rfl) hx

omit [Ipnet] in
/-- Merging in two values is merging in their merge, where they are joinable. -/
theorem mergeOp_mergeOp {strategy : MergeStrategy} {x y : Value} (hx : x.WF) (hy : y.WF)
    (hjoin : Joinable strategy x y) {old : Option Value} (hold : ∀ u, old = some u → u.WF) :
    mergeOp strategy y (mergeOp strategy x old) = mergeOp strategy (mergeAs strategy x y) old := by
  cases old with
  | none => cases strategy <;> rfl
  | some e =>
    cases strategy with
    | replace => rfl
    | topLevelMerge => exact congrArg some (Value.mergeTopLevel_assoc (hold e rfl) hx hy hjoin)
    | deepMerge => exact congrArg some (Value.mergeDeep_assoc (hold e rfl) hx hy hjoin)

/-- Two merges into a network are one merge of the merged value, in a writer of any history of
well-formed values, where the values are joinable. -/
theorem sameAfter_merged {b : WriterBuilder} {w₀ : Writer} (hb : b.build = .ok w₀) {calls : List Call}
    (hcalls : ∀ c ∈ calls, c.Keeps Value.WF) (hno : .error .panic ∉ (run calls w₀).1) (net : IpNet)
    {strategy : MergeStrategy} {x y : Value} (hx : x.WF) (hy : y.WF)
    (hjoin : Joinable strategy x y)
    (hlim : RunInLimits ([.merged net x strategy, .merged net y strategy].map .insert)
      (run calls w₀).2)
    (hlim' : RunInLimits ([.merged net (mergeAs strategy x y) strategy].map .insert)
      (run calls w₀).2) :
    (run calls w₀).2.SameAfter [.merged net x strategy, .merged net y strategy]
      [.merged net (mergeAs strategy x y) strategy] := by
  have hw : (run calls w₀).2.Reachable := ⟨b, w₀, calls, hb, hno, rfl⟩
  have hvalues : ∀ ip v, (run calls w₀).2.get ip = .ok (some v) → v.WF := fun ip v hget =>
    forall_of_get (forall_run hcalls (forall_build hb)) hget
  generalize (run calls w₀).2 = w at *
  obtain ⟨l, r, h⟩ := hw.inv
  refine hw.sameAfter h hlim hlim' fun ip q hq => ?_
  rw [accepted_eq_filter _ h (neverFull_of_limits hlim),
    accepted_eq_filter _ h (neverFull_of_limits hlim')]
  have hsame : ∀ inserts : List Insert, (∀ i ∈ inserts, i.net = net) →
      (inserts.filter fun i => w.Accepts i.net) = if w.Accepts net then inserts else [] := by
    intro inserts hnets
    split_ifs with hacc
    · exact List.filter_eq_self.mpr fun i hi => by rw [hnets i hi]; exact decide_eq_true hacc
    · exact List.filter_eq_nil_iff.mpr fun i hi => by rw [hnets i hi]; simpa using hacc
  rw [hsame _ (by simp [Insert.net]), hsame _ (by simp [Insert.net])]
  split_ifs with hacc
  · rw [foldOps_cons, foldOps_cons, foldOps_cons]
    show foldOps w.ipVersion [] ip (if net.Covers w.ipVersion ip then mergeOp strategy y
      (if net.Covers w.ipVersion ip then mergeOp strategy x _ else _)
      else if net.Covers w.ipVersion ip then mergeOp strategy x _ else _) =
      foldOps w.ipVersion [] ip (if net.Covers w.ipVersion ip then
        mergeOp strategy (mergeAs strategy x y) _ else _)
    split_ifs with hc
    · rw [mergeOp_mergeOp hx hy hjoin fun u hu => hvalues ip u (by rw [h.get hq, hu])]
    · rfl
  · rfl

omit [Ipnet] in
/-- A city and its country can be merged before they are inserted, onto what was there. -/
theorem sameAfter_merged_city :
    let _ := Ipnet.std
    let net : IpNet := .v4 ⟨0x01000000, 8, by decide⟩
    let old : Call := .insert (.value net (.map [("asn", .u32 7)]))
    ∃ w₀ : Writer, ({ databaseType := "City", ipVersion := .v4 } : WriterBuilder).build = .ok w₀ ∧
      (run [old] w₀).2.SameAfter
        [.merged net (.map [("city", .string "Oslo")]) .deepMerge,
          .merged net (.map [("country", .string "Norway")]) .deepMerge]
        [.merged net (.map [("city", .string "Oslo"), ("country", .string "Norway")]) .deepMerge] := by
  intro _ net old
  let b : WriterBuilder := { databaseType := "City", ipVersion := .v4 }
  let w₀ : Writer := { toWriterBuilder := b, tree := Tree.new, pool := ValuePool.new }
  have hb : b.build = .ok w₀ := rfl
  have hold : ∀ c ∈ [old], c.Keeps Value.WF := fun c hc => by
    rw [List.mem_singleton.mp hc]
    intro _ v _ hv
    cases hv
    exact Value.wf_singleton trivial
  have hcity : (Value.map [("city", .string "Oslo")]).WF := Value.wf_singleton trivial
  have hcountry : (Value.map [("country", .string "Norway")]).WF := Value.wf_singleton trivial
  refine ⟨w₀, hb, sameAfter_merged hb hold (by decide +kernel) net hcity hcountry ?_ ?_ ?_⟩
  · simp [Joinable, Fits, Value.FitsMap, mapGet]
  · refine ⟨⟨?_, ?_⟩, ⟨?_, ?_⟩, ?_, ?_⟩ <;> decide +kernel
  · refine ⟨⟨?_, ?_⟩, ?_, ?_⟩ <;> decide +kernel

end Merges

end Writer

end MmdbWriter
