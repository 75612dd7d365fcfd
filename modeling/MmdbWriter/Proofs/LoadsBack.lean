import MmdbWriter.Proofs.Load
import MmdbWriter.Proofs.Spent

/-!
# When a file is loaded

The networks of a file are maximal blocks. So the trie of a load has its nodes at their proper prefixes
and at no other path, and of the nodes of the tree all but these were made for the halves of a network.
A load that is not refused fails exactly when there are not as many indices.
-/

namespace MmdbWriter

open BitTrie (leaf node inner mem_inner)
open Exec (Spends)

namespace Writer

variable [Ipnet] {w : Writer} {l r : BitTrie (Leaf Value)}

section Spends

variable {σ : Type} {k : ℕ}

omit [Ipnet] in
theorem spends_onTree {x : Exec Fault (Tree × Unit) Unit}
    (hx : Spends Tree.size Fault.isFull k x (w.tree, ())) :
    Spends (fun w : Writer => w.tree.nodes.length) Fault.isFull k (onTree x) w := by
  unfold onTree
  rcases hres : x (w.tree, ()) with ⟨res, t, u⟩
  constructor
  · intro a w' h
    rw [hres] at h
    cases h
    exact hx.ok hres
  · intro e w' h
    rw [hres] at h
    cases h
    exact hx.error hres

omit [Ipnet] in
theorem Inv.ne_reserved (h : w.Inv l r) (hres : w.reservedNetworks = .included) (q : List Bool) :
    (node false l r).eval q ≠ .reserved := by
  let q' := (q ++ List.replicate w.ipVersion.treeDepth false).take w.ipVersion.treeDepth
  have hq' : q'.length = w.ipVersion.treeDepth := by simp [q']
  have heval : (node false l r).eval q' = (node false l r).eval q := by
    rw [BitTrie.eval_take _ _ _ h.height, BitTrie.eval_append_replicate]
  rw [← heval, Ne, h.reserved_iff q' hq']
  simp [WriterBuilder.reservedPaths, hres]

/-- An insert of a value makes a node for each prefix of the network's bits that a leaf covers. -/
theorem Inv.insertValue_spends (h : w.Inv l r) (hres : w.reservedNetworks = .included) {net : IpNet}
    {p : List Bool} (hacc : w.Accepts net) (hp : netPath w.ipVersion net = some p) (v : Value) :
    Spends (fun w : Writer => w.tree.nodes.length) Fault.isFull
      (p.inits.toFinset.filter fun q => ((node false l r).coverAt q).isSome).card
      (insertValue net v) w := by
  obtain ⟨li, ri, fp, hst, -, hli, hri⟩ := h.models
  rcases w.checks_cases net with ⟨hno, -⟩ | ⟨-, bits, len, hens, hpre, hlen, hpath⟩
  · exact absurd hacc hno
  obtain rfl : p = bits.msbs.take len := Option.some.inj (hp.symm.trans hpath)
  have hrel : (node false li ri).Rel (IdRel w.pool) (node false l r) := ⟨rfl, hli, hri⟩
  have hcov : ∀ q, ((node false li ri).coverAt q).isSome = ((node false l r).coverAt q).isSome := by
    intro q
    rcases hrel.coverAt q with ⟨h1, h2⟩ | ⟨a, b, h1, h2, -⟩ <;> rw [h1, h2] <;> rfl
  have hfree : (node false li ri).Forall fun a => a ≠ .reserved ∧ a ≠ .aliased :=
    BitTrie.forall_of_eval fun q => ⟨fun ha => h.ne_reserved hres q ((hrel.eval q).reserved_iff.mp ha),
      fun ha => h.not_aliased q ((hrel.eval q).aliased_iff.mp ha)⟩
  have hmissing : w.tree.missing (bits.msbs.take len) 0 = _ :=
    Tree.missing_eq false hst hfree.1 hfree.2
  simp only [hcov] at hmissing
  rw [← hmissing]
  have hdepth : w.ipVersion.treeDepth ≤ 128 := (treeDepth_le w.ipVersion).2
  refine Spends.congr ?_ (insertValue_of_checks hens hpre v)
  refine Spends.seq (Exec.spends_zero rfl fun e he => ?_) fun id w' hw' => ?_
  · rcases ValuePool.intern_cases v w.pool with ⟨id, pool', hint, -⟩ | ⟨hint, -⟩
    · unfold onPool at he
      rw [hint] at he
      cases he
    · unfold onPool at he
      rw [hint] at he
      cases he
      rfl
  · have htree : w'.tree = w.tree := by
      unfold onPool at hw'
      rw [← (Prod.mk.inj hw').2]
    refine spends_onTree ?_
    rw [htree]
    exact Tree.spends_insertAtNode bits (show len ≤ 128 by omega) 255 0 0 (w.tree, ())

end Spends

section Loading

/-- Networks that lie apart, none of them a part of a wider network that they cover with one value. -/
structure Maximal (depth : ℕ) (nets : List (List Bool × Value)) : Prop where
  ne_nil : ∀ n ∈ nets, n.1 ≠ []
  length_le : ∀ n ∈ nets, n.1.length ≤ depth
  apart : nets.Pairwise fun n n' => ¬ n.1 <+: n'.1 ∧ ¬ n'.1 <+: n.1
  maximal : ∀ n ∈ nets, ∀ q v, q ≠ [] → q <+: n.1 → (∀ x : List Bool, x.length = depth → q <+: x →
    ∃ p, (p, v) ∈ nets ∧ p <+: x) → q = n.1

/-- What holds of a writer once a load has inserted the networks. -/
structure Loading (w : Writer) (done : List (List Bool × Value)) (l r : BitTrie (Leaf Value)) :
    Prop where
  inv : w.Inv l r
  aliasing : w.ipv4Aliasing = .enabled
  reserved : w.reservedNetworks = .included
  values : ∀ x v, x.length = w.ipVersion.treeDepth →
    ((node false l r).eval x = .data v ↔ ∃ p, (p, v) ∈ done ∧ p <+: x)
  leaves : ∀ q, q ∉ inner (done.map Prod.fst) → ((node false l r).coverAt q).isSome
  nodes : w.tree.nodes.length = (inner (done.map Prod.fst)).card + done.length
  pool : w.pool.values.length ≤ done.length
  indexed : w.tree.Indexed

variable {done nets : List (List Bool × Value)}

omit [Ipnet] in
/-- The trie has nodes at the proper prefixes of the networks and nowhere else. -/
theorem Loading.covered_iff (h : w.Loading done l r) (hmax : Maximal w.ipVersion.treeDepth nets)
    (hsub : done ⊆ nets) (q : List Bool) :
    ((node false l r).coverAt q).isSome ↔ q ∉ inner (done.map Prod.fst) := by
  refine ⟨fun hcov hq => ?_, h.leaves q⟩
  obtain ⟨a, ha⟩ := Option.isSome_iff_exists.mp hcov
  rcases mem_inner.mp hq with rfl | ⟨p, hp, hpre, hne⟩
  · simp [BitTrie.coverAt] at ha
  obtain ⟨⟨p, v⟩, hn, rfl⟩ := List.mem_map.mp hp
  have hqnil : q ≠ [] := by
    rintro rfl
    simp [BitTrie.coverAt] at ha
  have hbelow : ∀ x, q <+: x → (node false l r).eval x = a := by
    rintro x ⟨s, rfl⟩
    exact BitTrie.coverAt_eq_some ha s
  -- the leaf at `q` has the value of the network below it
  have hlen := hmax.length_le _ (hsub hn)
  have hleaf : a = .data v := by
    let x := p ++ List.replicate (w.ipVersion.treeDepth - p.length) false
    have hx : x.length = w.ipVersion.treeDepth := by
      simp only [x, List.length_append, List.length_replicate]
      dsimp only at hlen
      omega
    rw [← hbelow x (hpre.trans (List.prefix_append _ _))]
    exact (h.values x v hx).mpr ⟨p, hn, List.prefix_append _ _⟩
  refine hne (hmax.maximal _ (hsub hn) q v hqnil hpre fun x hx hqx => ?_)
  obtain ⟨p', hp', hpx⟩ := (h.values x v hx).mp ((hbelow x hqx).trans hleaf)
  exact ⟨p', hsub hp', hpx⟩

omit [Ipnet] in
theorem Maximal.nodup {depth : ℕ} (hmax : Maximal depth nets) : nets.Nodup :=
  hmax.apart.imp fun hee => by
    rintro rfl
    exact hee.1 List.prefix_rfl

variable {n : List Bool × Value} {rest : List (List Bool × Value)} {depth : ℕ}

omit [Ipnet] in
theorem Maximal.apart_last (hmax : Maximal depth (done ++ n :: rest)) :
    ∀ n' ∈ done, ¬ n'.1 <+: n.1 ∧ ¬ n.1 <+: n'.1 := fun n' hn' =>
  (List.pairwise_append.mp hmax.apart).2.2 n' hn' n List.mem_cons_self

omit [Ipnet] in
theorem Maximal.not_mem_inner (hmax : Maximal depth (done ++ n :: rest)) :
    n.1 ∉ inner ((done ++ [n]).map Prod.fst) := by
  intro h
  rcases mem_inner.mp h with h | ⟨p, hp, hpre, hne⟩
  · exact hmax.ne_nil n (by simp) h
  · obtain ⟨n', hn', rfl⟩ := List.mem_map.mp hp
    rcases List.mem_append.mp hn' with hn' | hn'
    · exact (hmax.apart_last n' hn').2 hpre
    · exact hne (by rw [List.mem_singleton.mp hn'])

theorem accepts_default (hal : w.ipv4Aliasing = .enabled) (hres : w.reservedNetworks = .included)
    {net : IpNet} {p : List Bool} (hp : netPath w.ipVersion net = some p) :
    w.Accepts net ↔ ¬ InAlias w.ipVersion p := by
  have hcheck := checks_default hal hres hp
  rcases w.checks_cases net with ⟨hno, -⟩ | ⟨hacc, bits, len, hens, hpre, -⟩
  · refine iff_of_false hno (not_not.mpr ?_)
    by_contra hin
    rw [if_neg hin] at hcheck
    unfold checks at hcheck
    rcases hens : w.ensureInsertable net with e | _
    · rw [hens] at hcheck
      cases hcheck
    · exact hno ⟨hens, by rw [hp]; rfl⟩
  · refine iff_of_true hacc fun hin => ?_
    rw [if_pos hin] at hcheck
    unfold checks at hcheck
    rw [hens, hpre] at hcheck
    cases hcheck

omit [Ipnet] in
/-- The tries after the insert of one more network. -/
theorem Loading.inserted (h : w.Loading done l r)
    (hmax : Maximal w.ipVersion.treeDepth (done ++ n :: rest)) {w' : Writer}
    (hopt : w'.toWriterBuilder = w.toWriterBuilder)
    (hm : w'.Models (BitTrie.update (Leaf.apply fun _ => some n.2) n.1 l r).1
      (BitTrie.update (Leaf.apply fun _ => some n.2) n.1 l r).2)
    (hlen : w.tree.nodes.length ≤ w'.tree.nodes.length) (hindexed : w'.tree.Indexed)
    (hnodes : w'.tree.nodes.length = (inner ((done ++ [n]).map Prod.fst)).card + (done ++ [n]).length)
    (hpool : w'.pool.values.length ≤ (done ++ [n]).length) :
    w'.Loading (done ++ [n]) (BitTrie.update (Leaf.apply fun _ => some n.2) n.1 l r).1
      (BitTrie.update (Leaf.apply fun _ => some n.2) n.1 l r).2 where
  inv := h.inv.update (hmax.length_le n (by simp)) hopt hm hlen
  aliasing := by rw [hopt]; exact h.aliasing
  reserved := by rw [hopt]; exact h.reserved
  values x v hx := by
    have hver : w'.ipVersion = w.ipVersion := by rw [hopt]
    rw [hver] at hx
    rw [BitTrie.eval_update _ false n.1 l r x (by rw [hx]; exact hmax.length_le n (by simp))]
    simp only [List.mem_append, List.mem_singleton]
    by_cases hpre : n.1 <+: x
    · -- no network before this one covers the address
      have hnone : ∀ p v', (p, v') ∈ done → ¬ p <+: x := by
        intro p v' hp hpx
        obtain ⟨h1, h2⟩ := hmax.apart_last _ hp
        rcases List.prefix_or_prefix_of_prefix hpx hpre with h' | h'
        · exact h1 h'
        · exact h2 h'
      have hfree := h.inv.ne_reserved h.reserved x
      have halias := h.inv.not_aliased x
      rw [if_pos hpre]
      have happly : ((node false l r).eval x).apply (fun _ => some n.2) = .data n.2 := by
        cases heval : (node false l r).eval x with
        | noData | data _ => rfl
        | reserved => exact absurd heval hfree
        | aliased => exact absurd heval halias
      rw [happly, Leaf.data.injEq]
      constructor
      · rintro rfl
        exact ⟨n.1, Or.inr rfl, hpre⟩
      · rintro ⟨p, hp | rfl, hpx⟩
        · exact absurd hpx (hnone p v hp)
        · rfl
    · rw [if_neg hpre, h.values x v hx]
      refine exists_congr fun p => and_congr_left fun hpx => ?_
      constructor
      · exact Or.inl
      · rintro (hp | rfl)
        · exact hp
        · exact absurd hpx hpre
  leaves q hq := by
    refine BitTrie.isSome_coverAt_update _ false (fun hqp => ?_) (h.leaves q fun hq' => hq ?_)
    · by_contra hne
      exact hq (mem_inner.mpr (Or.inr ⟨n.1, by simp, hqp, hne⟩))
    · exact BitTrie.inner_mono (by rw [List.map_append]; exact List.subset_append_left _ _) hq'
  nodes := hnodes
  pool := hpool
  indexed := hindexed

/-- A network that is not refused is inserted, or there are not enough indices for its nodes. -/
theorem Loading.insert_cases (h : w.Loading done l r)
    (hmax : Maximal w.ipVersion.treeDepth (done ++ n :: rest)) {net : IpNet}
    (hp : netPath w.ipVersion net = some n.1) (hno : ¬ InAlias w.ipVersion n.1) :
    (∃ w' l' r', insertValue net n.2 w = (.ok (), w') ∧ w'.toWriterBuilder = w.toWriterBuilder ∧
      w'.Loading (done ++ [n]) l' r') ∨
    (∃ e w', insertValue net n.2 w = (.error e, w') ∧
      2 ^ 32 < (inner ((done ++ [n]).map Prod.fst)).card + (done ++ [n]).length) := by
  have hacc := (accepts_default h.aliasing h.reserved hp).mpr hno
  have hspends := h.inv.insertValue_spends h.reserved hacc hp n.2
  have hpath : (done ++ [n]).map Prod.fst = done.map Prod.fst ++ [n.1] := List.map_append
  have hcard := BitTrie.card_inner_append (hpath ▸ hmax.not_mem_inner)
  simp only [h.covered_iff hmax (List.subset_append_left _ _)] at hspends
  have hinner := BitTrie.card_inner_pos (done.map Prod.fst)
  have hinner' := BitTrie.card_inner_pos (done.map Prod.fst ++ [n.1])
  have hnodes := h.nodes
  have hindexed : w.tree.nodes.length ≤ 2 ^ 32 := h.indexed
  have hpool := h.pool
  have hlength : (done ++ [n]).length = done.length + 1 := List.length_append
  obtain ⟨-, hpool'⟩ := insertValue_length net n.2 w
  have hindexed' := insertValue_indexed net n.2 w h.indexed
  obtain ⟨hl, hr⟩ := h.inv.height_lt
  rcases exec_insert_cases h.inv.models hl hr (.value net n.2) with ⟨hrej, -⟩ | ⟨-, p, hp', heff⟩
  · exact absurd hacc hrej
  obtain rfl : n.1 = p := Option.some.inj (hp.symm.trans hp')
  change Effect _ _ _ _ _ _ (Writer.insertValue net n.2 w) at heff
  rcases hres : Writer.insertValue net n.2 w with ⟨res, w'⟩
  rw [hres] at heff hpool' hindexed'
  dsimp only at hpool' hindexed'
  cases heff with
  | done hopt hm hlen =>
    have hspent := hspends.ok hres
    exact Or.inl ⟨w', _, _, rfl, hopt, h.inserted hmax hopt hm hlen hindexed' (by
      rw [hpath]
      omega) (by omega)⟩
  | full l' r' _ _ _ _ hfull =>
    have hspent := hspends.error hres
    have hshort : (fullFault w'.tree).isFull = 1 := rfl
    refine Or.inr ⟨_, w', rfl, ?_⟩
    rw [hpath]
    omega
  | panic hfull =>
    refine Or.inr ⟨_, w', rfl, ?_⟩
    rw [hpath]
    omega

/-- A load inserts all networks, or one of them is refused, or there are not enough indices for their
nodes. -/
theorem Loading.run_cases : ∀ {entries : List (IpNet × Value)} {nets done : List (List Bool × Value)}
    {w : Writer} {l r : BitTrie (Leaf Value)}, w.Loading done l r →
    Maximal w.ipVersion.treeDepth (done ++ nets) → List.Forall₂ (fun e n =>
      netPath w.ipVersion e.1 = some n.1 ∧ e.2 = n.2) entries nets →
    (∃ w' l' r', loadEntries entries w = .ok w' ∧ w'.toWriterBuilder = w.toWriterBuilder ∧
      w'.Loading (done ++ nets) l' r' ∧ ∀ n ∈ nets, ¬ InAlias w.ipVersion n.1) ∨
    (∃ e, loadEntries entries w = .error e ∧ ((∃ n ∈ nets, InAlias w.ipVersion n.1) ∨
      2 ^ 32 < (inner ((done ++ nets).map Prod.fst)).card + (done ++ nets).length)) := by
  intro entries
  induction entries with
  | nil =>
    intro nets done w l r h _ hnets
    cases hnets
    exact Or.inl ⟨w, l, r, rfl, rfl, by rwa [List.append_nil], by simp⟩
  | cons e entries ih =>
    intro nets done w l r h hmax hnets
    obtain _ | ⟨⟨hp, hv⟩, hrest⟩ := hnets
    rename_i n nets
    rw [Writer.loadEntries, hv]
    by_cases hin : InAlias w.ipVersion n.1
    · have hacc := mt (accepts_default h.aliasing h.reserved hp).mp (not_not.mpr hin)
      rcases exec_insert_cases h.inv.models h.inv.height_lt.1 h.inv.height_lt.2 (.value e.1 n.2) with
        ⟨-, err, herr⟩ | ⟨hacc', -⟩
      · have herr' : insertValue e.1 n.2 w = (.error (.err err), w) := herr
        rw [herr']
        exact Or.inr ⟨_, rfl, Or.inl ⟨n, List.mem_cons_self, hin⟩⟩
      · exact absurd hacc' hacc
    have happend : done ++ [n] ++ nets = done ++ n :: nets := by simp
    rcases h.insert_cases hmax hp hin with ⟨w', l', r', hok, hopt, h'⟩ | ⟨err, w', herr, hfull⟩
    · have hver : w'.ipVersion = w.ipVersion := by rw [hopt]
      rw [hok]
      rcases ih h' (by rw [hver, happend]; exact hmax) (by rw [hver]; exact hrest) with
        ⟨w'', l'', r'', hload, hopt', h'', hno⟩ | ⟨err, hload, hbad⟩
      · refine Or.inl ⟨w'', l'', r'', hload, hopt'.trans hopt, by rwa [happend] at h'', fun n' hn' => ?_⟩
        rcases List.mem_cons.mp hn' with rfl | hn'
        · exact hin
        · rw [← hver]
          exact hno n' hn'
      · refine Or.inr ⟨err, hload, hbad.imp ?_ ?_⟩
        · rintro ⟨n', hn', hin'⟩
          exact ⟨n', List.mem_cons_of_mem _ hn', hver ▸ hin'⟩
        · rw [happend]
          exact id
    · rw [herr]
      refine Or.inr ⟨err, rfl, Or.inr (hfull.trans_le ?_)⟩
      rw [← happend]
      exact Nat.add_le_add (Finset.card_le_card (BitTrie.inner_mono (List.map_subset _
        (List.subset_append_left _ _)))) (List.sublist_append_left _ nets).length_le

/-- A load starts with a root of two leaves without data. -/
theorem loading_build {b : WriterBuilder} (hb : b.build = .ok w) (hal : b.ipv4Aliasing = .enabled)
    (hres : b.reservedNetworks = .included) : ∃ l r, w.Loading [] l r := by
  obtain ⟨w', l, r, hb', hopt, hinv, hnone, hleaves⟩ := build_inv b
  obtain rfl : w = w' := Except.ok.inj (hb.symm.trans hb')
  have htree : w.tree = Tree.new ∧ w.pool = ValuePool.new := by
    unfold WriterBuilder.build at hb
    rw [if_neg (by rw [hres]; decide)] at hb
    rw [← Except.ok.inj hb]
    exact ⟨rfl, rfl⟩
  refine ⟨l, r, hinv, by rw [hopt]; exact hal, by rw [hopt]; exact hres, fun x v _ => ?_,
    fun q hq => hleaves q ?_, ?_, ?_, WriterBuilder.build_indexed hb⟩
  · have hvalue := hnone x
    refine iff_of_false (fun hx => ?_) (by simp)
    rw [hx] at hvalue
    cases hvalue
  · obtain ⟨c, q, rfl⟩ := List.exists_cons_of_ne_nil fun h => hq (mem_inner.mpr (Or.inl h))
    have hpaths : b.reservedPaths = [] := by simp [WriterBuilder.reservedPaths, hres]
    unfold WriterBuilder.paintedTrie
    rw [hpaths]
    cases c <;> rfl
  · rw [htree.1]
    rfl
  · rw [htree.2]
    exact le_rfl

/-- What a load has inserted is what `get` returns. -/
theorem Loading.get_eq (h : w.Loading nets l r) {ip : IpAddr} {q : List Bool}
    (hq : addrPath w.ipVersion ip = some q) (v : Value) :
    w.get ip = .ok (some v) ↔ ∃ p, (p, v) ∈ nets ∧ p <+: q := by
  rw [h.inv.get hq, Except.ok.injEq, ← h.values q v (length_addrPath hq)]
  cases (node false l r).eval q <;> simp [Leaf.value]

end Loading

section File

/-- The networks of a file are the maximal blocks. -/
theorem Inv.maximal_networks (h : w.Inv l r) (hlen : w.tree.nodes.length < 2 ^ 32)
    {nets : List (List Bool × Value)} (hnets : nets.Perm
      ((w.builtTrie (node false l r)).leaves.filterMap (Leaf.entryAt []))) :
    (∀ p v, (p, v) ∈ nets ↔ w.MaximalBlock p v) ∧ Maximal w.ipVersion.treeDepth nets := by
  have hleaf : ∀ p v, (p, v) ∈ nets ↔ (w.builtTrie (node false l r)).leafAt p = some (.data v) :=
    fun p v => by rw [hnets.mem_iff, Leaf.mem_filterMap_entryAt, BitTrie.mem_leaves]
  have hmem : ∀ p v, (p, v) ∈ nets ↔ w.MaximalBlock p v := fun p v => by
    rw [hleaf, h.leafAt_builtTrie_iff hlen]
  refine ⟨hmem, fun n hn => ((hmem n.1 n.2).mp hn).ne_nil, fun n hn => ((hmem n.1 n.2).mp hn).length_le,
    ?_, fun n hn q v hne hpre hall => ?_⟩
  · rw [hnets.pairwise_iff fun hee => hee.symm]
    exact Leaf.pairwise_entries _
  · refine ((hmem n.1 n.2).mp hn).maximal q hne hpre ⟨v, fun ip x hx hqx => ?_⟩
    obtain ⟨p, hp, hpx⟩ := hall x (length_addrPath hx) hqx
    exact (h.get_eq_some_iff_leafAt hx v).mpr ⟨p, (hleaf p v).mp hp, hpx⟩

theorem Reachable.mem_networks_iff (hw : w.Reachable) {now : SystemTime}
    {file database metadata : List UInt8} {layout : Mmdb.Layout}
    (hlays : w.Lays now file database metadata layout) (hlen : w.tree.nodes.length < 2 ^ 32)
    {nets : List (List Bool × Value)} (hnets : w.networks = .ok nets) :
    ∀ p v, (p, v) ∈ nets ↔ w.MaximalBlock p v := by
  obtain ⟨l, r, -, hinv, -, hnets', -⟩ := hw.listing hlays
  obtain rfl := Except.ok.inj (hnets.symm.trans hnets')
  exact (hinv.maximal_networks hlen (.refl _)).1

variable [Maxminddb] {now : SystemTime} {file database metadata : List UInt8} {layout : Mmdb.Layout}

/-- The load of the file gives a writer that agrees with the writer of the file at every address outside
its alias networks. -/
def LoadsBack (w : Writer) (file : List UInt8) : Prop :=
  ∃ w', load file = .ok w' ∧ ∀ ip, ¬ w.Aliases ip → w'.get ip = w.get ip

omit [Maxminddb] in
/-- The database is within the limits of readers, no network of it lies in an alias network, and there
are indices for the nodes that its networks need. -/
structure Loadable (w : Writer) (now : SystemTime) (metadata : List UInt8) : Prop where
  readable : w.Readable now metadata
  nodes : w.tree.nodes.length < 2 ^ 32
  unaliased : ∀ p v, w.MaximalBlock p v → ¬ InAlias w.ipVersion p
  indices : ∀ nets : List (List Bool × Value), nets.Nodup → (∀ n ∈ nets, w.MaximalBlock n.1 n.2) →
    (inner (nets.map Prod.fst)).card + nets.length ≤ 2 ^ 32

/-- The load of a file inserts all maximal blocks, or one of them is refused, or there are not enough
indices for their nodes. -/
theorem Reachable.load_blocks (hw : w.Reachable) (hlays : w.Lays now file database metadata layout)
    (hread : w.Readable now metadata) {reader : Reader}
    (hfrom : Maxminddb.fromSource file = .ok reader) (hreads : reader.Reads file)
    (hlen : w.tree.nodes.length < 2 ^ 32) :
    ∃ nets : List (List Bool × Value), (∀ p v, (p, v) ∈ nets ↔ w.MaximalBlock p v) ∧ nets.Nodup ∧
      ((∃ w', load file = .ok w' ∧ (∀ n ∈ nets, ¬ InAlias w.ipVersion n.1) ∧
        (inner (nets.map Prod.fst)).card + nets.length ≤ 2 ^ 32 ∧ ∀ ip, w'.get ip = w.get ip) ∨
      ∃ e, load file = .error e ∧ ((∃ n ∈ nets, InAlias w.ipVersion n.1) ∨
        2 ^ 32 < (inner (nets.map Prod.fst)).card + nets.length)) := by
  obtain ⟨l, r, -, hinv, -, hnets, -⟩ := hw.listing hlays
  obtain ⟨nets, entries, w₀, size, hperm, hpaths, -, hb, hopt₀, heq⟩ :=
    hw.exists_loadEntries hlays hread hfrom hreads hnets
  obtain ⟨hblocks, hmax⟩ := hinv.maximal_networks hlen hperm
  have hver : w₀.ipVersion = w.ipVersion := by rw [hopt₀]; rfl
  obtain ⟨l₀, r₀, hload₀⟩ := loading_build hb rfl rfl
  refine ⟨nets, hblocks, hmax.nodup, ?_⟩
  rw [heq]
  rw [← hver] at hmax hpaths ⊢
  rcases hload₀.run_cases hmax hpaths with ⟨w', l', r', hload, hopt, h', hno⟩ | herr
  · rw [List.nil_append] at h'
    refine Or.inl ⟨w', hload, hno, ?_, fun ip => ?_⟩
    · rw [← h'.nodes]
      exact h'.indexed
    · have hver' : w'.ipVersion = w.ipVersion := by rw [hopt, hver]
      cases hq : addrPath w.ipVersion ip with
      | none => rw [get_of_addrPath_none hq, get_of_addrPath_none (by rw [hver', hq])]
      | some q =>
        have hq' : addrPath w'.ipVersion ip = some q := by rw [hver', hq]
        have hiff : ∀ v, w'.get ip = .ok (some v) ↔ w.get ip = .ok (some v) := fun v => by
          rw [h'.get_eq hq', hinv.get_eq_some_iff hlen hq]
          exact exists_congr fun p => and_congr_left fun _ => hblocks p v
        rw [h'.inv.get hq', hinv.get hq] at hiff ⊢
        exact congrArg Except.ok (Option.ext fun v => by simpa using hiff v)
  · exact Or.inr herr

/-- The file of a loadable database is loaded back. Of a database within the limits of readers and of
the vector of nodes, no other file is. -/
theorem loadsBack_iff (hw : w.Reachable) (hlays : w.Lays now file database metadata layout)
    {reader : Reader} (hfrom : Maxminddb.fromSource file = .ok reader) (hreads : reader.Reads file) :
    (w.Loadable now metadata → w.LoadsBack file) ∧ (w.Readable now metadata →
      w.tree.nodes.length < 2 ^ 32 → w.LoadsBack file → w.Loadable now metadata) := by
  constructor
  · intro h
    obtain ⟨nets, hblocks, hnodup, ⟨w', hload, -, -, hget⟩ | ⟨e, -, ⟨n, hn, hin⟩ | hfull⟩⟩ :=
      hw.load_blocks hlays h.readable hfrom hreads h.nodes
    · exact ⟨w', hload, fun ip _ => hget ip⟩
    · exact absurd hin (h.unaliased n.1 n.2 ((hblocks n.1 n.2).mp hn))
    · exact absurd (h.indices nets hnodup fun n hn => (hblocks n.1 n.2).mp hn) (Nat.not_le.mpr hfull)
  · rintro hread hlen ⟨w', hload, -⟩
    obtain ⟨nets, hblocks, hnodup, ⟨_, -, hno, hindices, -⟩ | ⟨e, herr, -⟩⟩ :=
      hw.load_blocks hlays hread hfrom hreads hlen
    · refine ⟨hread, hlen, fun p v hp => hno (p, v) ((hblocks p v).mpr hp), fun nets' hnodup' hsub => ?_⟩
      have hsub' : nets' ⊆ nets := fun n hn => (hblocks n.1 n.2).mpr (hsub n hn)
      refine le_trans (Nat.add_le_add ?_ ?_) hindices
      · exact Finset.card_le_card (BitTrie.inner_mono (List.map_subset _ hsub'))
      · exact (List.subperm_of_subset hnodup' hsub').length_le
    · rw [hload] at herr
      cases herr

omit [Ipnet] [Maxminddb] in
/-- A database with aliases, of an IPv4 network and of an IPv6 network, is loaded back. -/
theorem loadsBack_iff_city :
    let _ := Ipnet.std
    ∃ (_ : Maxminddb) (w : Writer) (file : List UInt8), w.ipVersion = .v6 ∧
      w.ipv4Aliasing = .enabled ∧ w.toBytes 0 = .ok file ∧ w.LoadsBack file := by
  intro _
  obtain ⟨w, file, database, metadata, layout, reader, nets, hr, hopt, hnodes, hfile, hlays, hread,
    hnets, htwo, hno, -, -, hreads⟩ := reads_city
  let M := Maxminddb.single file reader
  have hlen : w.tree.nodes.length < 2 ^ 32 := by omega
  have hblocks := hr.mem_networks_iff hlays hlen hnets
  refine ⟨M, w, file, by rw [hopt], by rw [hopt], hfile,
    (loadsBack_iff hr hlays (Maxminddb.fromSource_single file reader) hreads).1
      ⟨hread, hlen, ?_, ?_⟩⟩
  · rintro p v hp ⟨-, a, ha, hpre⟩
    exact hno (p, v) ((hblocks p v).mpr hp) a ha hpre
  · intro nets' hnodup hmax
    have hsub : nets' ⊆ nets := fun n hn => (hblocks n.1 n.2).mpr (hmax n hn)
    have hcount := (List.subperm_of_subset hnodup hsub).length_le
    have hinner := BitTrie.card_inner_le (fun p hp => by
      obtain ⟨n, hn, rfl⟩ := List.mem_map.mp hp
      exact (hmax n hn).length_le.trans (treeDepth_le w.ipVersion).2)
    rw [List.length_map] at hinner
    omega

omit [Ipnet] [Maxminddb] in
/-- Without aliasing a database may have data at `2002::/16`, which a load refuses. -/
theorem not_loadsBack_alias :
    let _ := Ipnet.std
    let net : IpNet := .v6 ⟨0x20020000000000000000000000000000, 16, by decide⟩
    let b : WriterBuilder := { databaseType := "City", ipv4Aliasing := .disabled }
    ∃ (_ : Maxminddb) (w w' : Writer) (file : List UInt8) (reader : Reader), b.build = .ok w ∧
      insertValue net (.string "a") w = (.ok (), w') ∧ w'.toBytes 0 = .ok file ∧
      Maxminddb.fromSource file = .ok reader ∧ reader.Reads file ∧
      (∃ refused, load file = .error (.err (.aliasedNetwork refused))) ∧ ¬ w'.LoadsBack file := by
  intro _ net b
  let w : Writer := { toWriterBuilder := b, tree := Tree.new, pool := ValuePool.new }
  let w' : Writer := (insertValue net (.string "a") w).2
  have hok : (insertValue net (.string "a") w).1 = .ok () := by decide +kernel
  have hno : (insertValue net (.string "a") w).1 ≠ .error .panic := by
    rw [hok]
    decide
  have hr₀ : w.Reachable := Reachable.of_build (b := b) rfl
  obtain ⟨l, r, hinv⟩ := hr₀.inv
  have hopt : w'.toWriterBuilder = b := (hinv.insert_keeps (.value net (.string "a")) hno).1
  have hr : w'.Reachable := hr₀.exec (.insert (.value net (.string "a"))) hno
  have hshort : (w'.toBytes 0).map (fun file => decide (file.length ≤ 128 * 1024)) = .ok true := by
    decide +kernel
  have hnets : w'.networks = .ok [([false, false, true, false, false, false, false, false, false,
      false, false, false, false, false, true, false], .string "a")] := by decide +kernel
  obtain ⟨file, hfile⟩ : ∃ file, w'.toBytes 0 = .ok file := by
    rcases h : w'.toBytes 0 with e | file
    · rw [h] at hshort
      cases hshort
    · exact ⟨file, rfl⟩
  rw [hfile] at hshort
  have hlength : file.length ≤ 128 * 1024 := of_decide_eq_true (Except.ok.inj hshort)
  obtain ⟨t, data, idToOffset, size, treeBytes, ht, hpush, hpick, hser, heq⟩ := toBytes_eq_ok.mp hfile
  have hlays : w'.Lays 0 file _ _ _ :=
    ⟨t, data, idToOffset, size, treeBytes, ht, hpush, hpick, hser, rfl, rfl, rfl, heq⟩
  have hepoch : w'.buildEpochSecs 0 = 0 := by
    unfold buildEpochSecs
    rw [hopt]
    decide +kernel
  have hread : w'.Readable 0 (w'.metadata 0 t size).toBytes :=
    hr.readable_short (by rw [hopt]) (by rw [hopt]) (by rw [hopt]) hepoch hlays hlength hnets (by
      decide +kernel)
  let item : Maxminddb.Item :=
    ⟨.ok (some (Value.serialize (.string "a"))), .ok (.v6 0x20020000000000000000000000000000, 16)⟩
  let reader : Reader := ⟨⟨0, "City", [], 6, ["en"], size.asMetadata⟩, .ok [.ok item]⟩
  have hitems : reader.networks = .ok ([item].map .ok) := rfl
  have hsize : size.bits = size.bits := rfl
  have hreads : reader.Reads file := by
    refine hr.reads hlays hread hnets hsize ?_ hitems (.cons ⟨?_, rfl⟩ .nil)
    · rw [hepoch, hopt]
      rfl
    · exact ⟨_, _, net, rfl, by decide +kernel, by
        rw [hopt]
        decide +kernel⟩
  let M := Maxminddb.single file reader
  have hver : w'.ipVersion = .v6 := by rw [hopt]
  obtain ⟨refused, hload⟩ : ∃ refused, load file = .error (.err (.aliasedNetwork refused)) := by
    rcases hr.load_cases hlays hread (Maxminddb.fromSource_single file reader) hreads hnets (by
      rw [hver]
      decide) with
      ⟨-, -, -, -, -, -, -, hunaliased, -⟩ | ⟨refused, -, -, -, -, hload⟩
    · refine absurd ?_ (hunaliased _ List.mem_cons_self)
      rw [hver]
      decide +kernel
    · exact ⟨refused, hload⟩
  refine ⟨M, w, w', file, reader, rfl, Prod.ext hok rfl, hfile,
    Maxminddb.fromSource_single file reader, hreads, ⟨refused, hload⟩, ?_⟩
  rintro ⟨w'', hload', -⟩
  rw [hload] at hload'
  cases hload'

end File

end Writer

end MmdbWriter
