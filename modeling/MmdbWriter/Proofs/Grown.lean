import MmdbWriter.Histories
import MmdbWriter.Proofs.Marker
import MmdbWriter.Proofs.Size
import MmdbWriter.Proofs.Stateful

/-!
# What every history leaves

A tree that calls have led to stores a trie without pins and aliases, settled at the depth of its
addresses. A call that finds the vector of nodes full leaves leaves split along its path, and no more.
-/

namespace MmdbWriter

open BitTrie (leaf node Splits Settled)

theorem treeDepth_le (ipVersion : IpVersion) :
    0 < ipVersion.treeDepth ∧ ipVersion.treeDepth ≤ 128 := by
  cases ipVersion <;> decide

/-- A trie below the root: no pins, no aliases, no leaf deeper than the addresses but in pairs. -/
structure KidShape (ipVersion : IpVersion) (t : BitTrie (Leaf ValueId)) : Prop where
  unpinned : t.Unpinned
  not_aliased : t.Forall (· ≠ .aliased)
  settled : Settled (ipVersion.treeDepth - 1) t

namespace KidShape

variable {ipVersion : IpVersion} {t u : BitTrie (Leaf ValueId)}

theorem splits {k : ℕ} (h : KidShape ipVersion t) (hs : Splits k t u)
    (hk : k ≤ ipVersion.treeDepth - 1) : KidShape ipVersion u :=
  ⟨hs.unpinned h.unpinned, hs.forall h.not_aliased, h.settled.splits hs hk⟩

theorem markAt (h : KidShape ipVersion t) {p : List Bool} (hp : p.length ≤ ipVersion.treeDepth - 1) :
    KidShape ipVersion (t.markAt .noData .reserved p) :=
  ⟨BitTrie.unpinned_markAt p h.unpinned,
    BitTrie.forall_markAt (by simp) (by simp) p h.not_aliased, h.settled.markAt hp⟩

theorem height_le (h : KidShape ipVersion t) : t.height ≤ ipVersion.treeDepth := by
  have := h.settled.height_le
  have := (treeDepth_le ipVersion).1
  omega

end KidShape

namespace Tree

/-- The tree stores two tries of this shape below its root. -/
structure Shaped (ipVersion : IpVersion) (t : Tree) : Prop where
  stores : ∃ l r fp, NodeStores t.nodes 0 0 l r fp ∧ fp.Nodup ∧ KidShape ipVersion l ∧
    KidShape ipVersion r
  indexed : t.Indexed

variable {ipVersion : IpVersion} {t : Tree}

theorem shaped_new : Shaped ipVersion Tree.new where
  stores := ⟨leaf .noData, leaf .noData, [0], ⟨Node.empty, [], [], rfl, ⟨rfl, rfl⟩, ⟨rfl, rfl⟩, rfl⟩,
    List.nodup_singleton 0, ⟨trivial, by simp [BitTrie.Forall], by simp⟩,
    ⟨trivial, by simp [BitTrie.Forall], by simp⟩⟩
  indexed := by
    show 1 ≤ 2 ^ 32
    decide

theorem length_path {bits : BitVec 128} {prefixLen : ℕ} (hlen : prefixLen ≤ ipVersion.treeDepth) :
    (pathFrom bits prefixLen 0).length = prefixLen := by
  rw [length_pathFrom (hlen.trans (treeDepth_le ipVersion).2), Nat.sub_zero]

theorem Shaped.paintReserved (h : t.Shaped ipVersion) (bits : BitVec 128) {prefixLen : ℕ}
    (hlen : prefixLen ≤ ipVersion.treeDepth) :
    (paintReserved bits prefixLen t).2.Shaped ipVersion := by
  refine ⟨?_, installMarkerFrom_indexed bits .reserved prefixLen 0 0 t h.indexed⟩
  obtain ⟨l, r, fp, hst, hnd, hl, hr⟩ := h.stores
  have hmark := installMarkerFrom_spec .reserved bits
    (hlen.trans (treeDepth_le ipVersion).2) prefixLen 0 0 t l r fp rfl hst hnd
  have hp : (pathFrom bits prefixLen 0).length = prefixLen := length_path hlen
  have hpos := (treeDepth_le ipVersion).1
  unfold Tree.paintReserved installMarker
  generalize hres : installMarkerFrom bits (leafRecord 0 .reserved) prefixLen 0 0 t = res at hmark
  rw [show installMarkerFrom bits .reserved prefixLen 0 0 t = res from hres]
  cases hmark with
  | done fp' hst' hf _ =>
    refine ⟨_, _, fp', hst', hf.nodup, ?_⟩
    generalize pathFrom bits prefixLen 0 = p at hp
    rcases p with _ | ⟨b, p⟩
    · exact ⟨hl, hr⟩
    · have hp' : p.length ≤ ipVersion.treeDepth - 1 := by
        rw [List.length_cons] at hp
        omega
      cases b
      · exact ⟨hl.markAt hp', hr⟩
      · exact ⟨hl, hr.markAt hp'⟩
  | full fp' _ hsl hsr hst' hf _ _ =>
    exact ⟨_, _, fp', hst', hf.nodup, hl.splits hsl (by omega), hr.splits hsr (by omega)⟩

theorem leafM_aliased {σ : Type} {op : Option ValueId → Exec Fault σ (Option ValueId)}
    {a b : Leaf ValueId} {s s' : σ} (h : leafM op a s = (.ok b, s')) :
    b ≠ .aliased ↔ a ≠ .aliased := by
  have hask : ∀ o, (op o >>= fun id => pure (id.elim Leaf.noData Leaf.data)) s = (.ok b, s') →
      b ≠ .aliased := by
    intro o ho
    obtain ⟨id, s₁, -, h2⟩ := Exec.bind_eq_ok ho
    simp only [Exec.pure_apply, Prod.mk.injEq, Except.ok.injEq] at h2
    rw [← h2.1]
    cases id <;> simp
  cases a with
  | noData => exact iff_of_true (hask none h) (by simp)
  | data id => exact iff_of_true (hask (some id) h) (by simp)
  | reserved =>
    simp only [leafM, Exec.pure_apply, Prod.mk.injEq, Except.ok.injEq] at h
    simp [← h.1]
  | aliased =>
    simp only [leafM, Exec.pure_apply, Prod.mk.injEq, Except.ok.injEq] at h
    simp [← h.1]

/-- What the operation stops at is what an insert at a leaf stops at. -/
theorem leafM_error {σ : Type} {op : Option ValueId → Exec Fault σ (Option ValueId)} {P : Fault → Prop}
    (hop : ∀ {old s e s'}, op old s = (.error e, s') → P e) {a : Leaf ValueId} {e : Fault}
    {s s' : σ} (h : leafM op a s = (.error e, s')) : P e := by
  cases a with
  | noData => exact (Exec.bind_eq_error h).elim hop fun ⟨_, _, _, h'⟩ => by simp at h'
  | data id => exact (Exec.bind_eq_error h).elim hop fun ⟨_, _, _, h'⟩ => by simp at h'
  | reserved => simp [leafM] at h
  | aliased => simp [leafM] at h

/-- An update keeps the shape of the tries. -/
theorem updateM_kidShape {σ : Type} {op : Option ValueId → Exec Fault σ (Option ValueId)}
    {p : List Bool} {l r : BitTrie (Leaf ValueId)} {lr : BitTrie (Leaf ValueId) × BitTrie (Leaf ValueId)}
    {s s' : σ} (hl : KidShape ipVersion l) (hr : KidShape ipVersion r)
    (hp : p.length ≤ ipVersion.treeDepth) (hm : BitTrie.updateM (leafM op) p l r s = (.ok lr, s')) :
    KidShape ipVersion lr.1 ∧ KidShape ipVersion lr.2 := by
  have hset := BitTrie.updateM_settled hl.settled hr.settled (by omega) hm
  have hun := BitTrie.updateM_joined BitTrie.joined_unpinned hl.unpinned hr.unpinned hm
  have hal : (node false lr.1 lr.2).Forall (· ≠ .aliased) := BitTrie.forall_of_eval fun q =>
    (BitTrie.updateM_iff false (Q := (· ≠ .aliased)) leafM_aliased hm q).mpr
      (BitTrie.Forall.eval (t := node false l r) ⟨hl.not_aliased, hr.not_aliased⟩ q)
  exact ⟨⟨hun.1, hal.1, hset.1⟩, ⟨hun.2, hal.2, hset.2⟩⟩

theorem insert_outcome_of_kidShape {l r : BitTrie (Leaf ValueId)} {fp : List ℕ}
    (hst : NodeStores t.nodes 0 0 l r fp) (hnd : fp.Nodup) (hl : KidShape ipVersion l)
    (hr : KidShape ipVersion r) (bits : BitVec 128) {prefixLen : ℕ}
    (hlen : prefixLen ≤ ipVersion.treeDepth) {σ : Type} (s : σ)
    (op : Option ValueId → Exec Fault σ (Option ValueId)) :
    NodeOutcome t.nodes 0 0 l r fp (pathFrom bits prefixLen 0) s
      (BitTrie.updateM (leafM op) (pathFrom bits prefixLen 0) l r s)
      (insert bits prefixLen op (t, s)) := by
  have hdepth := treeDepth_le ipVersion
  exact insertAtNode_spec op bits (show prefixLen ≤ 128 by omega) 255 ipVersion.treeDepth 0 0 t s l r
    fp hst hnd hl.height_le hr.height_le (by omega) (by omega) (by omega)

theorem Shaped.insert (h : t.Shaped ipVersion) (bits : BitVec 128) {prefixLen : ℕ}
    (hlen : prefixLen ≤ ipVersion.treeDepth) {σ : Type} (s : σ)
    {op : Option ValueId → Exec Fault σ (Option ValueId)}
    (hop : ∀ {old s e s'}, op old s = (.error e, s') → e = .panic)
    (hres : (insert bits prefixLen op (t, s)).1 ≠ .error .panic) :
    (insert bits prefixLen op (t, s)).2.1.Shaped ipVersion := by
  refine ⟨?_, insertAtNode_indexed op bits prefixLen 255 0 0 (t, s) h.indexed⟩
  obtain ⟨l, r, fp, hst, hnd, hl, hr⟩ := h.stores
  have hspec := insert_outcome_of_kidShape hst hnd hl hr bits hlen s op
  have hp : (pathFrom bits prefixLen 0).length = prefixLen := length_path hlen
  generalize Tree.insert bits prefixLen op (t, s) = res at hspec hres
  cases hspec with
  | @done l' r' s' t' fp' hm hst' hf =>
    have hkids := updateM_kidShape hl hr (by omega) hm
    exact ⟨l', r', fp', hst', hf.nodup, hkids.1, hkids.2⟩
  | @fault e s' t' hm _ =>
    obtain rfl := BitTrie.updateM_error (P := fun e => e = .panic) (leafM_error hop) hm
    exact absurd rfl hres
  | full _ hsl hsr hst' hf _ =>
    exact ⟨_, _, _, hst', hf.nodup, hl.splits hsl (by omega), hr.splits hsr (by omega)⟩

/-- Every call keeps the shape. -/
theorem Grown.shaped (h : t.Grown ipVersion) : t.Shaped ipVersion := by
  induction h with
  | new => exact shaped_new
  | paintReserved _ bits hlen ih => exact ih.paintReserved bits hlen
  | insert _ bits hlen s hop hres ih => exact ih.insert bits hlen s hop hres

end Tree

namespace Writer

variable [Ipnet] {w : Writer}

theorem paintAll_grown {ipVersion : IpVersion} : ∀ (nets : List IpNet) {t : Tree},
    t.Grown ipVersion → (WriterBuilder.paintAll ipVersion nets t).2.Grown ipVersion
  | [], _, h => h
  | net :: nets, t, h => by
    rw [WriterBuilder.paintAll]
    rcases toTreePrefix_cases net ipVersion with ⟨bits, len, hpre, hle, -⟩ | ⟨n, -, -, -, herr⟩
    · simp only [hpre, Exec.bind_apply]
      have hstep := h.paintReserved bits hle
      rcases hres : Tree.paintReserved bits len t with ⟨_ | _, t'⟩ <;> rw [hres] at hstep
      · exact hstep
      · exact paintAll_grown nets hstep
    · simp only [herr, Exec.bind_apply, Exec.stop_apply]
      exact h

theorem build_grown {b : WriterBuilder} (h : b.build = .ok w) : w.tree.Grown w.ipVersion := by
  unfold WriterBuilder.build at h
  split_ifs at h
  · have hnew : Tree.new.Grown b.ipVersion := .new
    have hp := paintAll_grown (Reserved.networks b.ipVersion) hnew
    rcases hres : WriterBuilder.paintAll b.ipVersion (Reserved.networks b.ipVersion) Tree.new with
      ⟨_ | _, t⟩ <;> rw [hres] at h hp
    · cases h
    · simp only [Except.ok.injEq] at h
      subst h
      exact hp
  · simp only [Except.ok.injEq] at h
    subst h
    exact Tree.Grown.new

/-- What an insert does once its network is checked: nothing, or a call on the tree. -/
theorem insertWith_grown {τ : Type} (h : w.tree.Grown w.ipVersion) (net : IpNet)
    (op : Option Value → τ → Option Value × τ) (s : τ)
    (hres : (insertWith net op (w, s)).1 ≠ .error .panic) :
    (insertWith net op (w, s)).2.1.tree.Grown w.ipVersion ∧
      (insertWith net op (w, s)).2.1.toWriterBuilder = w.toWriterBuilder := by
  rcases checks_cases w net with ⟨-, e, herr⟩ | ⟨-, bits, len, hens, hpre, hle, -⟩
  · have hw : insertWith net op (w, s) = (.error (.err e), (w, s)) := herr _ (w, s)
    rw [hw]
    exact ⟨h, rfl⟩
  · rw [insertWith_of_checks hens hpre] at hres ⊢
    exact ⟨h.insert bits hle (w.pool, s) (fun h => leafOp_error op h) hres, rfl⟩

theorem insertValue_grown (h : w.tree.Grown w.ipVersion) (net : IpNet) (v : Value)
    (hres : (insertValue net v w).1 ≠ .error .panic) :
    (insertValue net v w).2.tree.Grown w.ipVersion ∧
      (insertValue net v w).2.toWriterBuilder = w.toWriterBuilder := by
  rcases checks_cases w net with ⟨-, e, herr⟩ | ⟨-, bits, len, hens, hpre, hle, -⟩
  · have hw : insertValue net v w = (.error (.err e), w) := herr _ w
    rw [hw]
    exact ⟨h, rfl⟩
  · rw [insertValue_of_checks hens hpre] at hres ⊢
    rcases hint : onPool (ValuePool.intern v) w with ⟨e | id, w'⟩
    · rw [Exec.bind_error hint]
      have hw' : w' = { w with pool := (ValuePool.intern v w.pool).2 } :=
        (congrArg Prod.snd hint).symm
      rw [hw']
      exact ⟨h, rfl⟩
    · have hw' : w' = { w with pool := (ValuePool.intern v w.pool).2 } :=
        (congrArg Prod.snd hint).symm
      rw [Exec.bind_ok hint, hw'] at hres ⊢
      exact ⟨h.insert bits hle () (fun h => by simp at h) hres, rfl⟩

theorem insertAll_grown (v : Value) : ∀ (nets : List IpNet) {w : Writer},
    w.tree.Grown w.ipVersion → (insertAll v nets w).1 ≠ .error .panic →
    (insertAll v nets w).2.tree.Grown w.ipVersion ∧
      (insertAll v nets w).2.toWriterBuilder = w.toWriterBuilder
  | [], _, h, _ => ⟨h, rfl⟩
  | net :: nets, w, h, hres => by
    rw [insertAll] at hres ⊢
    rcases hstep : insertValue net v w with ⟨e | _, w'⟩
    · rw [Exec.bind_error hstep] at hres ⊢
      have := insertValue_grown h net v (by rw [hstep]; exact hres)
      rwa [hstep] at this
    · rw [Exec.bind_ok hstep] at hres ⊢
      have hw' := insertValue_grown h net v (by rw [hstep]; simp)
      rw [hstep] at hw'
      have hver : w'.ipVersion = w.ipVersion :=
        congrArg (fun b : WriterBuilder => b.ipVersion) hw'.2
      obtain ⟨h1, h2⟩ := insertAll_grown v nets (by rw [hver]; exact hw'.1) hres
      rw [hver] at h1
      exact ⟨h1, h2.trans hw'.2⟩

/-- The tree of a writer is one that calls on the tree have led to. -/
theorem Grown.tree (h : w.Grown) : w.tree.Grown w.ipVersion := by
  have hver : ∀ {w w' : Writer}, w'.tree.Grown w.ipVersion ∧
      w'.toWriterBuilder = w.toWriterBuilder → w'.tree.Grown w'.ipVersion := by
    rintro w w' ⟨ht, hopt⟩
    rwa [show w'.ipVersion = w.ipVersion from
      congrArg (fun b : WriterBuilder => b.ipVersion) hopt]
  induction h with
  | build hb => exact build_grown hb
  | insertValue _ net v hres ih => exact hver (insertValue_grown ih net v hres)
  | insertWith _ net op s hres ih => exact hver (insertWith_grown ih net op s hres)
  | insertValueMerged _ net v strategy hres ih =>
    cases strategy with
    | replace => exact hver (insertValue_grown ih net v hres)
    | topLevelMerge => exact hver (insertWith_grown ih net _ () hres)
    | deepMerge => exact hver (insertWith_grown ih net _ () hres)
  | @insertRange w _ start stop v hres ih =>
    unfold Writer.insertRange at hres ⊢
    obtain ⟨e, hnets⟩ | ⟨nets, hnets⟩ : (∃ e, rangeToNetworks start stop = .error e) ∨
        ∃ nets, rangeToNetworks start stop = .ok nets := by
      cases rangeToNetworks start stop <;> simp
    · rw [Exec.bind_error (by rw [Exec.lift_apply, hnets])]
      exact ih
    · rw [Exec.bind_ok (by rw [Exec.lift_apply, hnets])] at hres ⊢
      exact hver (insertAll_grown v nets ih hres)

theorem Grown.exec (h : w.Grown) (c : Call) (hno : (exec c w).1 ≠ .error .panic) :
    (Writer.exec c w).2.Grown := by
  cases c with
  | insert i =>
    cases i with
    | value net v => exact .insertValue h net v hno
    | withOp net f => exact .insertWith h net (fun old t => (f old, t)) () hno
    | merged net v strategy => exact .insertValueMerged h net v strategy hno
  | range start stop v => exact .insertRange h start stop v hno

/-- Operations that are functions make a history too. -/
theorem Reachable.grown (h : w.Reachable) : w.Grown := by
  obtain ⟨b, w₀, calls, hb, hno, rfl⟩ := h
  have hw₀ : w₀.Grown := .build hb
  clear hb
  induction calls generalizing w₀ with
  | nil => exact hw₀
  | cons c calls ih =>
    have hc : (Writer.exec c w₀).1 ≠ .error .panic := fun hc => hno (by
      rw [run, hc]
      exact List.mem_cons_self)
    exact ih _ (fun hmem => hno (List.mem_cons_of_mem _ hmem)) (hw₀.exec c hc)

end Writer

end MmdbWriter
