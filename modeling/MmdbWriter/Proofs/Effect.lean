import MmdbWriter.Proofs.Models

/-!
# What an insert does to a writer

An insert that is not rejected applies its operation to the values below its network's bits, or
finds the vector of nodes or the pool full. With the vector full every lookup stays as it was.
-/

namespace MmdbWriter

open BitTrie (leaf node update updateM SameMap Sim)

section TreeInsert

variable {σ : Type} {le : σ → σ → Prop} {R : σ → Leaf ValueId → Leaf Value → Prop}
  {op : Option ValueId → Exec Fault σ (Option ValueId)} {g : Leaf Value → Leaf Value}

/-- How an insert into a tree that stores the ids of `l` and `r` can end. -/
inductive TreeOutcome (le : σ → σ → Prop) (R : σ → Leaf ValueId → Leaf Value → Prop)
    (g : Leaf Value → Leaf Value) (P : Fault → σ → Prop) (n : ℕ) (l r : BitTrie (Leaf Value))
    (p : List Bool) (t : Tree) (s : σ) : Except Fault Unit × Tree × σ → Prop
  | done {t' s'} (li ri fp) (hst : NodeStores t'.nodes 0 0 li ri fp) (hnd : fp.Nodup)
      (hle : le s s') (hl : li.Rel (R s') (update g p l r).1)
      (hr : ri.Rel (R s') (update g p l r).2) (hlen : t.nodes.length ≤ t'.nodes.length) :
      TreeOutcome le R g P n l r p t s (.ok (), t', s')
  | fault {e t' s'} (hP : P e s') : TreeOutcome le R g P n l r p t s (.error e, t', s')
  | full {t'} (l' r' li ri fp) (hst : NodeStores t'.nodes 0 0 li ri fp) (hnd : fp.Nodup)
      (hl : li.Rel (R s) l') (hr : ri.Rel (R s) r') (hsl : SameMap n l l') (hsr : SameMap n r r')
      (hlen : 2 ^ 32 ≤ t'.nodes.length) :
      TreeOutcome le R g P n l r p t s (.error (fullFault t'), t', s)

theorem exists_rel_sameMap {n : ℕ} {s : σ} {li li' : BitTrie (Leaf ValueId)}
    {l : BitTrie (Leaf Value)} (hinj : ∀ a b b', R s a b → R s a b' → b = b')
    (hl : li.Rel (R s) l) (hs : SameMap n li li') :
    ∃ l', li'.Rel (R s) l' ∧ SameMap n l l' := by
  obtain ⟨l', hl'⟩ := BitTrie.exists_rel (R := R s) (t := li') fun p =>
    ⟨l.eval p, by rw [hs.eval]; exact hl.eval p⟩
  refine ⟨l', hl', fun p => ?_, fun hu => ?_, ?_⟩
  · have h1 := hl'.eval p
    rw [hs.eval] at h1
    exact hinj _ _ _ h1 (hl.eval p)
  · exact hl'.unpinned.mp (hs.unpinned (hl.unpinned.mpr hu))
  · rw [← hl'.height]
    exact hs.height

theorem Tree.insert_outcome (hsim : Sim le R (leafM op) g) {P : Fault → σ → Prop}
    (hfault : ∀ {s s' a b e}, R s a b → leafM op a s = (.error e, s') → P e s') {t : Tree} {s : σ}
    {li ri : BitTrie (Leaf ValueId)} {l r : BitTrie (Leaf Value)} {fp : List ℕ} {n len : ℕ}
    (bits : BitVec 128) (hst : NodeStores t.nodes 0 0 li ri fp) (hnd : fp.Nodup)
    (hl : li.Rel (R s) l) (hr : ri.Rel (R s) r) (hln : l.height ≤ n) (hrn : r.height ≤ n)
    (hlen : len ≤ n + 1) (hn : n < 128) :
    TreeOutcome le R g P n l r (bits.msbs.take len) t s (Tree.insert bits len op (t, s)) := by
  have h := insertAtNode_spec op bits (show len ≤ 128 by omega) 255 n 0 0 t s li ri fp
    hst hnd (by rw [hl.height]; exact hln) (by rw [hr.height]; exact hrn) (by omega) (by omega)
    (by omega)
  have hpath : pathFrom bits len 0 = bits.msbs.take len := List.drop_zero
  rw [hpath] at h
  unfold Tree.insert
  have hright : ∀ a b b', R s a b → R s a b' → b = b' := fun a b b' h1 h2 =>
    (hsim.inj a b a b' h1 h2).mp rfl
  generalize Tree.insertAtNode op bits len 255 0 0 (t, s) = res at h
  cases h with
  | @done li' ri' s' t' fp' hm hst' hf =>
    obtain ⟨hle, hl', hr'⟩ := BitTrie.updateM_rel hsim _ hl hr hm
    exact .done li' ri' fp' hst' hf.nodup hle hl' hr' hf.length_le
  | fault hm _ => exact .fault (BitTrie.updateM_fault hsim hfault _ hl hr hm)
  | @full li' ri' t' fp' hp hsl hsr hst' hf hfull =>
    have hk : (bits.msbs.take len).length - 1 ≤ n := by
      rw [List.length_take]
      omega
    obtain ⟨l', hl', hsl'⟩ := exists_rel_sameMap hright hl
      (hsl.sameMap hk (by rw [hl.height]; exact hln))
    obtain ⟨r', hr', hsr'⟩ := exists_rel_sameMap hright hr
      (hsr.sameMap hk (by rw [hr.height]; exact hrn))
    exact .full l' r' li' ri' fp' hst' hf.nodup hl' hr' hsl' hsr' hfull

end TreeInsert

namespace Writer

/-- What an insert of the operation `f` below the bits `p` can do to a writer. -/
inductive Effect (f : Option Value → Option Value) (n : ℕ) (l r : BitTrie (Leaf Value))
    (p : List Bool) (w : Writer) : Except Fault Unit × Writer → Prop
  | done {w'} (hopt : w'.toWriterBuilder = w.toWriterBuilder)
      (hm : w'.Models (update (Leaf.apply f) p l r).1 (update (Leaf.apply f) p l r).2)
      (hlen : w.tree.nodes.length ≤ w'.tree.nodes.length) : Effect f n l r p w (.ok (), w')
  | full {w'} (l' r') (hopt : w'.toWriterBuilder = w.toWriterBuilder) (hm : w'.Models l' r')
      (hl : SameMap n l l') (hr : SameMap n r r') (hlen : 2 ^ 32 ≤ w'.tree.nodes.length) :
      Effect f n l r p w (.error (fullFault w'.tree), w')
  | panic {w'} (hpool : 2 ^ 32 ≤ w'.pool.values.length) :
      Effect f n l r p w (.error .panic, w')

variable {w : Writer} {l r : BitTrie (Leaf Value)} {n : ℕ}

theorem sim_const {pool : ValuePool} {id : ValueId} {v : Value}
    (hid : pool.values[id]? = some v) :
    Sim (fun _ _ : Unit => True) (fun _ => IdRel pool)
      (leafM fun _ => pure (some id)) (Leaf.apply fun _ => some v) where
  refl _ := trivial
  trans _ _ := trivial
  mono _ _ _ h := h
  inj _ _ _ _ h h' := h.inj h'
  step {s s' a a' b} hab h := by
    refine ⟨trivial, ?_⟩
    cases a <;> cases b <;> simp only [IdRel, Leaf.Rel] at hab <;>
      simp only [leafM, Exec.bind_apply, Exec.pure_apply, Prod.mk.injEq, Except.ok.injEq] at h <;>
      obtain ⟨rfl, -⟩ := h <;>
      simp [IdRel, Leaf.Rel, Leaf.apply, hid]

variable [Ipnet]

theorem insertValue_of_checks {net : IpNet} {bits : BitVec 128} {len : ℕ}
    (hens : w.ensureInsertable net = .ok ()) (hpre : toTreePrefix net w.ipVersion = .ok (bits, len))
    (v : Value) : insertValue net v w = (onPool (ValuePool.intern v) >>= fun id =>
      onTree (Tree.insert bits len fun _ => pure (some id))) w := by
  unfold insertValue
  rw [Exec.bind_ok (Exec.read_apply w), Exec.bind_ok (a := ()) (by rw [Exec.lift_apply, hens]),
    Exec.bind_ok (a := (bits, len)) (by rw [Exec.lift_apply, hpre])]

theorem insertWith_of_checks {net : IpNet} {bits : BitVec 128} {len : ℕ}
    (hens : w.ensureInsertable net = .ok ()) (hpre : toTreePrefix net w.ipVersion = .ok (bits, len))
    {τ : Type} (op : Option Value → τ → Option Value × τ) (t : τ) :
    insertWith net op (w, t) = onTreePool (Tree.insert bits len (leafOp op)) (w, t) := by
  unfold insertWith
  rw [Exec.bind_ok (Exec.read_apply _), Exec.bind_ok (a := ()) (by rw [Exec.lift_apply, hens]),
    Exec.bind_ok (a := (bits, len)) (by rw [Exec.lift_apply, hpre])]

/-- What `insert_value` does once its checks are passed. -/
theorem insertValue_effect (hm : w.Models l r) (hl : l.height ≤ n) (hr : r.height ≤ n)
    (hn : n < 128) {net : IpNet} {v : Value} {bits : BitVec 128} {len : ℕ}
    (hens : w.ensureInsertable net = .ok ()) (hpre : toTreePrefix net w.ipVersion = .ok (bits, len))
    (hlen : len ≤ n + 1) :
    Effect (fun _ => some v) n l r (bits.msbs.take len) w (insertValue net v w) := by
  obtain ⟨li, ri, fp, hst, hnd, hli, hri⟩ := hm
  rw [insertValue_of_checks hens hpre]
  rcases ValuePool.intern_cases v w.pool with ⟨id, pool', hint, hle, hid⟩ | ⟨hint, hfull⟩
  · have hpool : onPool (ValuePool.intern v) w = (.ok id, { w with pool := pool' }) := by
      unfold onPool
      rw [hint]
    rw [Exec.bind_ok hpool]
    have h := Tree.insert_outcome (sim_const hid) (P := fun _ _ => False)
      (fun {s s' a b e} _ h => by cases a <;> simp [leafM, Exec.bind_apply] at h) (s := ()) bits
      hst hnd (hli.mono fun _ _ => IdRel.mono hle) (hri.mono fun _ _ => IdRel.mono hle) hl hr hlen hn
    unfold onTree
    generalize Tree.insert bits len (fun _ => pure (some id)) (w.tree, ()) = res at h
    cases h with
    | done li' ri' fp' hst' hnd' _ hl' hr' hlen' =>
      exact .done rfl ⟨li', ri', fp', hst', hnd', hl', hr'⟩ hlen'
    | fault hP => exact hP.elim
    | @full t' l' r' li' ri' fp' hst' hnd' hl' hr' hsl hsr hfull =>
      have hm' : Models { w with tree := t', pool := pool' } l' r' :=
        ⟨li', ri', fp', hst', hnd', hl', hr'⟩
      have hopt : { w with tree := t', pool := pool' }.toWriterBuilder = w.toWriterBuilder := rfl
      exact .full l' r' hopt hm' hsl hsr hfull
  · have hpool : onPool (ValuePool.intern v) w = (.error .panic, w) := by
      unfold onPool
      rw [hint]
    rw [Exec.bind_error hpool]
    exact .panic hfull

section LeafOp

omit [Ipnet]

variable {τ : Type} (f : Option Value → Option Value) {pool : ValuePool} {t : τ}

theorem leafOp_bind {oldId : Option ValueId} {old : Option Value}
    (h : oldId.bind (fun id => pool.values[id]?) = old) (hsome : oldId.isSome = old.isSome) :
    leafOp (fun old (t : τ) => (f old, t)) oldId (pool, t) =
      (match f old with
      | some v => Exec.onFst (ValuePool.intern v) >>= fun id => pure (some id)
      | none => pure none : Exec Fault (ValuePool × τ) (Option ValueId)) (pool, t) := by
  rcases oldId with _ | id
  · simp only [Option.bind_none] at h
    subst h
    rfl
  · rcases old with _ | v
    · simp at hsome
    · have hv : pool.values[id]? = some v := h
      have hget : pool.get id = .ok v := by
        unfold ValuePool.get
        rw [hv]
      unfold leafOp
      rw [Exec.bind_ok (Exec.read_apply _)]
      simp only [hget]
      rfl

/-- What an insert with the closure of `insert_with` makes of a leaf that holds or may hold data. -/
theorem leafOp_cases {oldId : Option ValueId} {old : Option Value}
    (h : oldId.bind (fun id => pool.values[id]?) = old) (hsome : oldId.isSome = old.isSome) :
    (∃ a' pool', (leafOp (fun old (t : τ) => (f old, t)) oldId >>= fun id =>
        pure (id.elim Leaf.noData Leaf.data)) (pool, t) = (.ok a', (pool', t)) ∧ pool.Le pool' ∧
      IdRel pool' a' ((f old).elim .noData .data)) ∨
    ((leafOp (fun old (t : τ) => (f old, t)) oldId >>= fun id =>
        pure (id.elim Leaf.noData Leaf.data)) (pool, t) = (.error .panic, (pool, t)) ∧
      2 ^ 32 ≤ pool.values.length) := by
  have heq := leafOp_bind f (t := t) h hsome
  rcases hf : f old with _ | v
  · rw [hf] at heq
    have hok : leafOp (fun old (t : τ) => (f old, t)) oldId (pool, t) = (.ok none, (pool, t)) := heq
    refine Or.inl ⟨.noData, pool, ?_, ValuePool.Le.refl pool, trivial⟩
    rw [Exec.bind_ok hok]
    rfl
  · rw [hf] at heq
    rcases ValuePool.intern_cases v pool with ⟨id, pool', hint, hle, hid⟩ | ⟨hint, hfull⟩
    · have hok : leafOp (fun old (t : τ) => (f old, t)) oldId (pool, t) =
          (.ok (some id), (pool', t)) := by
        rw [heq]
        dsimp only
        rw [Exec.bind_ok (a := id) (by rw [Exec.onFst_apply, hint]), Exec.pure_apply]
      refine Or.inl ⟨.data id, pool', ?_, hle, hid⟩
      rw [Exec.bind_ok hok]
      rfl
    · have herr : leafOp (fun old (t : τ) => (f old, t)) oldId (pool, t) =
          (.error .panic, (pool, t)) := by
        rw [heq]
        dsimp only
        rw [Exec.bind_error (by rw [Exec.onFst_apply, hint])]
      exact Or.inr ⟨Exec.bind_error herr _, hfull⟩

theorem leafM_leafOp {a : Leaf ValueId} {b : Leaf Value} (hab : IdRel pool a b) :
    (∃ a' pool', leafM (leafOp fun old (t : τ) => (f old, t)) a (pool, t) =
        (.ok a', (pool', t)) ∧ pool.Le pool' ∧ IdRel pool' a' (b.apply f)) ∨
    (leafM (leafOp fun old (t : τ) => (f old, t)) a (pool, t) = (.error .panic, (pool, t)) ∧
      2 ^ 32 ≤ pool.values.length) := by
  cases a <;> cases b <;> simp only [IdRel, Leaf.Rel] at hab
  · exact leafOp_cases f rfl rfl
  · exact leafOp_cases f hab rfl
  · exact Or.inl ⟨.reserved, pool, rfl, ValuePool.Le.refl pool, trivial⟩
  · exact Or.inl ⟨.aliased, pool, rfl, ValuePool.Le.refl pool, trivial⟩

end LeafOp

omit [Ipnet] in
theorem sim_leafOp {τ : Type} (f : Option Value → Option Value) :
    Sim (fun s s' : ValuePool × τ => s.1.Le s'.1) (fun s => IdRel s.1)
      (leafM (leafOp fun old t => (f old, t))) (Leaf.apply f) where
  refl s := ValuePool.Le.refl s.1
  trans h h' := h.trans h'
  mono h _ _ hab := hab.mono h
  inj _ _ _ _ h h' := h.inj h'
  step {s s' a a' b} hab h := by
    obtain ⟨pool, t⟩ := s
    rcases leafM_leafOp f (t := t) hab with ⟨a'', pool', heq, hle, hrel⟩ | ⟨heq, -⟩
    · rw [heq, Prod.mk.injEq, Except.ok.injEq] at h
      obtain ⟨rfl, rfl⟩ := h
      exact ⟨hle, hrel⟩
    · rw [heq] at h
      simp at h

/-- What `insert_with` does once its checks are passed. -/
theorem insertWithFn_effect (hm : w.Models l r) (hl : l.height ≤ n) (hr : r.height ≤ n)
    (hn : n < 128) {net : IpNet} {f : Option Value → Option Value} {bits : BitVec 128} {len : ℕ}
    (hens : w.ensureInsertable net = .ok ()) (hpre : toTreePrefix net w.ipVersion = .ok (bits, len))
    (hlen : len ≤ n + 1) :
    Effect f n l r (bits.msbs.take len) w (insertWithFn net f w) := by
  obtain ⟨li, ri, fp, hst, hnd, hli, hri⟩ := hm
  have hfault : ∀ {s s' : ValuePool × Unit} {a : Leaf ValueId} {b : Leaf Value} {e : Fault},
      IdRel s.1 a b → leafM (leafOp fun old t => (f old, t)) a s = (.error e, s') →
      e = .panic ∧ 2 ^ 32 ≤ s'.1.values.length := by
    rintro ⟨pool, t⟩ s' a b e hab h
    rcases leafM_leafOp f (t := t) hab with ⟨a', pool', heq, -, -⟩ | ⟨heq, hfull⟩
    · rw [heq] at h
      simp at h
    · rw [heq, Prod.mk.injEq, Except.error.injEq] at h
      obtain ⟨rfl, rfl⟩ := h
      exact ⟨rfl, hfull⟩
  have h := Tree.insert_outcome (sim_leafOp f) hfault (s := (w.pool, ())) bits hst hnd hli hri hl hr
    hlen hn
  unfold insertWithFn
  simp only [insertWith_of_checks hens hpre, onTreePool]
  generalize Tree.insert bits len (leafOp fun old t => (f old, t)) (w.tree, w.pool, ()) = res at h
  cases h with
  | done li' ri' fp' hst' hnd' _ hl' hr' hlen' =>
    exact .done rfl ⟨li', ri', fp', hst', hnd', hl', hr'⟩ hlen'
  | @fault e t' s' hP =>
    obtain ⟨rfl, hfull⟩ := hP
    exact .panic hfull
  | @full t' l' r' li' ri' fp' hst' hnd' hl' hr' hsl hsr hfull =>
    have hm' : Models { w with tree := t' } l' r' := ⟨li', ri', fp', hst', hnd', hl', hr'⟩
    have hopt : { w with tree := t' }.toWriterBuilder = w.toWriterBuilder := rfl
    exact .full l' r' hopt hm' hsl hsr hfull

/-- The network passes the checks of the insert methods. -/
def Accepts (w : Writer) (net : IpNet) : Prop :=
  w.ensureInsertable net = .ok () ∧ (netPath w.ipVersion net).isSome

theorem ensureInsertable_cases (w : Writer) (net : IpNet) :
    w.ensureInsertable net = .ok () ∨ ∃ e, w.ensureInsertable net = .error (.err e) := by
  unfold ensureInsertable
  split_ifs with h1 h2
  · exact Or.inr ⟨_, rfl⟩
  · exact Or.inr ⟨_, rfl⟩
  · exact Or.inl rfl

/-- A network is rejected by the checks, or has its bits in the tree. -/
theorem checks_cases (w : Writer) (net : IpNet) :
    (¬ w.Accepts net ∧ ∃ e, ∀ {α : Type} {σ : Type} (f : BitVec 128 × ℕ → Exec Fault σ α) (s : σ),
      (Exec.lift (w.ensureInsertable net) >>= fun _ =>
        Exec.lift (toTreePrefix net w.ipVersion) >>= f) s = (.error (.err e), s)) ∨
    (w.Accepts net ∧ ∃ bits len, w.ensureInsertable net = .ok () ∧
      toTreePrefix net w.ipVersion = .ok (bits, len) ∧ len ≤ w.ipVersion.treeDepth ∧
      netPath w.ipVersion net = some (bits.msbs.take len)) := by
  rcases ensureInsertable_cases w net with hens | ⟨e, hens⟩
  · rcases toTreePrefix_cases net w.ipVersion with
      ⟨bits, len, hpre, hlen, hpath⟩ | ⟨n, -, -, hpath, hpre⟩
    · exact Or.inr ⟨⟨hens, by rw [hpath]; rfl⟩, bits, len, hens, hpre, hlen, hpath⟩
    · refine Or.inl ⟨fun h => by simp [Accepts, hpath] at h, .ipv6InIpv4Tree n.masked,
        fun f s => ?_⟩
      rw [hens, hpre]
      rfl
  · refine Or.inl ⟨fun h => by simp [Accepts, hens] at h, e, fun f s => ?_⟩
    rw [hens]
    rfl

/-- An insert is rejected and leaves the writer as it was, or passes the checks and has its
effect. -/
theorem exec_insert_cases (hm : w.Models l r) (hl : l.height < w.ipVersion.treeDepth)
    (hr : r.height < w.ipVersion.treeDepth) (i : Insert) :
    (¬ w.Accepts i.net ∧ ∃ e, i.exec w = (.error (.err e), w)) ∨
    (w.Accepts i.net ∧ ∃ p, netPath w.ipVersion i.net = some p ∧
      Effect i.op (w.ipVersion.treeDepth - 1) l r p w (i.exec w)) := by
  have hdepth : w.ipVersion.treeDepth ≤ 128 := by cases w.ipVersion <;> decide
  have hvalue : ∀ net v, (¬ w.Accepts net ∧ ∃ e, insertValue net v w = (.error (.err e), w)) ∨
      (w.Accepts net ∧ ∃ p, netPath w.ipVersion net = some p ∧
        Effect (fun _ => some v) (w.ipVersion.treeDepth - 1) l r p w (insertValue net v w)) := by
    intro net v
    rcases checks_cases w net with ⟨hno, e, herr⟩ | ⟨hyes, bits, len, hens, hpre, hlen, hpath⟩
    · exact Or.inl ⟨hno, e, herr _ w⟩
    · exact Or.inr ⟨hyes, _, hpath, insertValue_effect hm (by omega) (by omega) (by omega) hens hpre
        (by omega)⟩
  have hwith : ∀ net f, (¬ w.Accepts net ∧ ∃ e, insertWithFn net f w = (.error (.err e), w)) ∨
      (w.Accepts net ∧ ∃ p, netPath w.ipVersion net = some p ∧
        Effect f (w.ipVersion.treeDepth - 1) l r p w (insertWithFn net f w)) := by
    intro net f
    rcases checks_cases w net with ⟨hno, e, herr⟩ | ⟨hyes, bits, len, hens, hpre, hlen, hpath⟩
    · have hw : insertWith net (fun old (t : Unit) => (f old, t)) (w, ()) =
          (.error (.err e), (w, ())) := herr _ (w, ())
      exact Or.inl ⟨hno, e, by unfold insertWithFn; rw [hw]⟩
    · exact Or.inr ⟨hyes, _, hpath, insertWithFn_effect hm (by omega) (by omega) (by omega) hens hpre
        (by omega)⟩
  cases i with
  | value net v => exact hvalue net v
  | withOp net f => exact hwith net f
  | merged net v strategy =>
    cases strategy with
    | replace => exact hvalue net v
    | topLevelMerge => exact hwith net (mergeOp .topLevelMerge v)
    | deepMerge => exact hwith net (mergeOp .deepMerge v)

end Writer

end MmdbWriter
