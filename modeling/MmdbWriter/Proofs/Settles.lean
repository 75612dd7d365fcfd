import MmdbWriter.Proofs.Compacted

/-!
# What holds of every writer

An operation that answers the two halves of a host route differently leaves two leaves below the depth
of the addresses. All else that holds of a writer holds after any calls.
-/

namespace MmdbWriter

open BitTrie (leaf node updateM Settled SimM Splits)

namespace Writer

/-- What holds of a writer that stands for the tries `l` and `r`, whatever its operations answered. -/
structure Settles (w : Writer) (l r : BitTrie (Leaf Value)) : Prop where
  models : w.Models l r
  unpinned : (node false l r).Unpinned
  not_aliased : ∀ p, (node false l r).eval p ≠ .aliased
  settled : Settled w.ipVersion.treeDepth (node false l r)
  reserved_iff : ∀ q, w.ipVersion.treeDepth ≤ q.length →
    ((node false l r).eval q = .reserved ↔ ∃ p ∈ w.reservedPaths, p <+: q)
  reduced : w.tree.nodes.length < 2 ^ 32 →
    l.ReducedOn (· ≠ .reserved) ∧ r.ReducedOn (· ≠ .reserved)

variable {w : Writer} {l r : BitTrie (Leaf Value)}

/-- The invariant of function operations is stronger. -/
theorem Inv.settles (h : w.Inv l r) : w.Settles l r where
  models := h.models
  unpinned := h.unpinned
  not_aliased := h.not_aliased
  settled := BitTrie.settled_of_height_le h.height
  reserved_iff q hq := by
    have hlen : (q.take w.ipVersion.treeDepth).length = w.ipVersion.treeDepth := by
      rw [List.length_take]
      omega
    rw [← BitTrie.eval_take _ _ q h.height, h.reserved_iff _ hlen]
    refine exists_congr fun p => and_congr_right fun hp => ?_
    have hle : p.length ≤ w.ipVersion.treeDepth := by
      unfold WriterBuilder.reservedPaths at hp
      split_ifs at hp
      · obtain ⟨net, -, hnet⟩ := List.mem_filterMap.mp hp
        exact length_netPath_le hnet
      · cases hp
    exact ⟨fun hpre => hpre.trans (List.take_prefix _ _),
      fun hpre => List.prefix_of_prefix_length_le hpre (List.take_prefix _ _) (by omega)⟩
  reduced := h.reduced

theorem Settles.ids (h : w.Settles l r) : ∃ li ri fp, NodeStores w.tree.nodes 0 0 li ri fp ∧
    fp.Nodup ∧ KidShape w.ipVersion li ∧ KidShape w.ipVersion ri ∧ li.Rel (IdRel w.pool) l ∧
    ri.Rel (IdRel w.pool) r := by
  obtain ⟨li, ri, fp, hst, hnd, hli, hri⟩ := h.models
  have hset := h.settled
  rw [← Nat.sub_add_cancel (treeDepth_le w.ipVersion).1] at hset
  have hkid : ∀ {t : BitTrie (Leaf ValueId)} {u : BitTrie (Leaf Value)}, t.Rel (IdRel w.pool) u →
      u.Unpinned → (∀ q, u.eval q ≠ .aliased) → Settled (w.ipVersion.treeDepth - 1) u →
      KidShape w.ipVersion t := fun ht hu ha hs =>
    ⟨ht.unpinned.mpr hu, BitTrie.forall_of_eval fun q hq => ha q ((ht.eval q).aliased_iff.mp hq),
      (ht.settled fun _ _ _ _ => IdRel.inj).mpr hs⟩
  exact ⟨li, ri, fp, hst, hnd,
    hkid hli h.unpinned.2.1 (fun q => by simpa using h.not_aliased (false :: q)) hset.1,
    hkid hri h.unpinned.2.2 (fun q => by simpa using h.not_aliased (true :: q)) hset.2, hli, hri⟩

theorem settles_of_ids {li ri : BitTrie (Leaf ValueId)} {fp : List ℕ}
    (hst : NodeStores w.tree.nodes 0 0 li ri fp) (hnd : fp.Nodup) (hl : KidShape w.ipVersion li)
    (hr : KidShape w.ipVersion ri) (hli : li.Rel (IdRel w.pool) l) (hri : ri.Rel (IdRel w.pool) r)
    (hres : ∀ q, w.ipVersion.treeDepth ≤ q.length →
      ((node false l r).eval q = .reserved ↔ ∃ p ∈ w.reservedPaths, p <+: q))
    (hred : w.tree.nodes.length < 2 ^ 32 →
      l.ReducedOn (· ≠ .reserved) ∧ r.ReducedOn (· ≠ .reserved)) : w.Settles l r := by
  have hrel : (node false li ri).Rel (IdRel w.pool) (node false l r) := ⟨rfl, hli, hri⟩
  obtain ⟨hu, ha, hs⟩ := KidShape.node hl hr
  exact ⟨⟨li, ri, fp, hst, hnd, hli, hri⟩, hrel.unpinned.mp hu,
    fun q hq => ha.eval q ((hrel.eval q).aliased_iff.mpr hq),
    (hrel.settled fun _ _ _ _ => IdRel.inj).mp hs, hres, hred⟩

section Step

variable {σ τ : Type} {le : σ → σ → Prop} {pool : σ → ValuePool} {part : σ → τ}
  {op : Option ValueId → Exec Fault σ (Option ValueId)} {g : Option Value → τ → Option Value × τ}

/-- How an insert into the writer's tree can end, with an operation on ids that does what `g` does on
values. -/
inductive TreeStep (pool : σ → ValuePool) (part : σ → τ) (g : Option Value → τ → Option Value × τ)
    (w : Writer) (l r : BitTrie (Leaf Value)) (p : List Bool) (s : σ) :
    Except Fault Unit × Tree × σ → Prop
  | done {t' s'} (lr) (hrun : updateM (applyM g) p l r (part s) = (.ok lr, part s'))
      (h : Settles { w with tree := t', pool := pool s' } lr.1 lr.2)
      (hlen : w.tree.nodes.length ≤ t'.nodes.length) : TreeStep pool part g w l r p s (.ok (), t', s')
  | fault {t' s'} : TreeStep pool part g w l r p s (.error .panic, t', s')
  | full {t'} (l' r') (h : Settles { w with tree := t', pool := pool s } l' r') :
      TreeStep pool part g w l r p s (.error (fullFault t'), t', s)

theorem Settles.treeStep (h : w.Settles l r)
    (hsim : SimM le (fun s => IdRel (pool s)) part (leafM op) (applyM g))
    (hop : ∀ {old s e s'}, op old s = (.error e, s') → e = .panic) {s : σ}
    (hpool : w.pool.Le (pool s)) (bits : BitVec 128) {len : ℕ} (hlen : len ≤ w.ipVersion.treeDepth) :
    TreeStep pool part g w l r (bits.msbs.take len) s (Tree.insert bits len op (w.tree, s)) := by
  obtain ⟨li, ri, fp, hst, hnd, hkl, hkr, hli, hri⟩ := h.ids
  have hli' : li.Rel (IdRel (pool s)) l := hli.mono fun _ _ => IdRel.mono hpool
  have hri' : ri.Rel (IdRel (pool s)) r := hri.mono fun _ _ => IdRel.mono hpool
  have hspec := Tree.insert_outcome_of_kidShape hst hnd hkl hkr bits hlen s op
  have hp : (pathFrom bits len 0).length = len := Tree.length_path hlen
  have hfrom : pathFrom bits len 0 = bits.msbs.take len := List.drop_zero
  generalize Tree.insert bits len op (w.tree, s) = res at hspec
  cases hspec with
  | @done li' ri' s' t' fp' hm hst' hf =>
    obtain ⟨hkl', hkr'⟩ := Tree.updateM_kidShape hkl hkr (by omega) hm
    rw [hfrom] at hm
    obtain ⟨-, lr, hrun, hl', hr'⟩ := BitTrie.updateM_simM hsim hli' hri' hm
    refine .done lr hrun (settles_of_ids hst' hf.nodup hkl' hkr' hl' hr' (fun q hq => ?_)
      fun hlt => ?_) hf.length_le
    · rw [BitTrie.updateM_iff false (Q := (· = .reserved)) (fun h => applyM_iff rfl h) hrun q]
      exact h.reserved_iff q hq
    · have hred := h.reduced (hf.length_le.trans_lt hlt)
      exact BitTrie.updateM_joined (BitTrie.joined_reducedOn _) hred.1 hred.2 hrun
  | @fault e s' t' hm _ =>
    obtain rfl := BitTrie.updateM_error (P := fun e => e = .panic) (Tree.leafM_error hop) hm
    exact .fault
  | @full li' ri' t' fp' _ hsl hsr hst' hf hfull =>
    obtain ⟨l', hl'⟩ := BitTrie.exists_rel (R := IdRel (pool s)) (t := li') fun q =>
      ⟨l.eval q, by rw [hsl.eval]; exact hli'.eval q⟩
    obtain ⟨r', hr'⟩ := BitTrie.exists_rel (R := IdRel (pool s)) (t := ri') fun q =>
      ⟨r.eval q, by rw [hsr.eval]; exact hri'.eval q⟩
    have heval : ∀ q, (node false l' r').eval q = (node false l r).eval q := by
      have hl : ∀ q, l'.eval q = l.eval q := fun q => by
        have h1 := hl'.eval q
        rw [hsl.eval] at h1
        exact h1.right_unique (hli'.eval q)
      have hr : ∀ q, r'.eval q = r.eval q := fun q => by
        have h1 := hr'.eval q
        rw [hsr.eval] at h1
        exact h1.right_unique (hri'.eval q)
      rintro (_ | ⟨_ | _, q⟩) <;> simp [hl, hr]
    refine .full l' r' (settles_of_ids hst' hf.nodup (hkl.splits hsl (by omega))
      (hkr.splits hsr (by omega)) hl' hr' (fun q hq => ?_) fun hlt => ?_)
    · rw [heval]
      exact h.reserved_iff q hq
    · have hlt' : t'.nodes.length < 2 ^ 32 := hlt
      omega

end Step

section Functions

variable {f : Option Value → Option Value}

theorem sim_applyM_fn {τ : Type} (f : Option Value → Option Value) :
    BitTrie.Sim (fun _ _ : τ => True) (fun _ => Eq) (applyM fun old t => (f old, t))
      (Leaf.apply f) where
  refl _ := trivial
  trans _ _ := trivial
  mono _ _ _ h := h
  inj a b a' b' h h' := by rw [h, h']
  step {s s' a a' b} hab h := by
    subst hab
    refine ⟨trivial, ?_⟩
    cases a <;> simp only [applyM, Exec.pure_apply, Prod.mk.injEq, Except.ok.injEq] at h <;>
      rw [← h.1] <;> rfl

theorem eval_of_updateM_fn {τ : Type} {p q : List Bool} {lr : BitTrie (Leaf Value) × BitTrie (Leaf Value)}
    {t t' : τ} (hrun : updateM (applyM fun old t => (f old, t)) p l r t = (.ok lr, t'))
    (hq : p.length ≤ q.length) : (node false lr.1 lr.2).eval q =
      if p <+: q then ((node false l r).eval q).apply f else (node false l r).eval q := by
  have hrefl : ∀ u : BitTrie (Leaf Value), u.Rel Eq u := BitTrie.Rel.refl fun _ => rfl
  obtain ⟨-, hl, hr⟩ := BitTrie.updateM_rel (sim_applyM_fn f) p (hrefl l) (hrefl r) hrun
  have hrel : (node false lr.1 lr.2).Rel Eq (node false (BitTrie.update (Leaf.apply f) p l r).1
    (BitTrie.update (Leaf.apply f) p l r).2) := ⟨rfl, hl, hr⟩
  rw [hrel.eval q, BitTrie.eval_update (Leaf.apply f) false p l r q hq]

/-- The one id stored is the one value stored. -/
theorem simM_const {pool : ValuePool} {id : ValueId} {v : Value} (hid : pool.values[id]? = some v) :
    SimM (fun _ _ : Unit => True) (fun _ => IdRel pool) (fun s => s)
      (leafM fun _ => pure (some id)) (applyM fun _ t => (some v, t)) where
  refl _ := trivial
  trans _ _ := trivial
  mono _ _ _ h := h
  inj _ _ _ _ h h' := h.inj h'
  step {s s' a a' b} hab h := by
    refine ⟨trivial, ?_⟩
    cases a <;> cases b <;> simp only [IdRel, Leaf.Rel] at hab <;>
      simp only [leafM, Exec.bind_apply, Exec.pure_apply, Prod.mk.injEq, Except.ok.injEq] at h <;>
      obtain ⟨rfl, -⟩ := h <;>
      simp [IdRel, Leaf.Rel, applyM, hid]

end Functions

section Calls

variable [Ipnet]

/-- A call of `insert_value` that is not rejected: the value is interned, then inserted. -/
theorem Settles.insertValue_treeStep (h : w.Settles l r) {net : IpNet} {bits : BitVec 128} {len : ℕ}
    (hens : w.ensureInsertable net = .ok ()) (hpre : toTreePrefix net w.ipVersion = .ok (bits, len))
    (hlen : len ≤ w.ipVersion.treeDepth) (v : Value) : insertValue net v w = (.error .panic, w) ∨
      ∃ pool' res, TreeStep (fun _ => pool') (fun s => s) (fun _ t => (some v, t)) w l r
          (bits.msbs.take len) () res ∧
        insertValue net v w = (res.1, { w with tree := res.2.1, pool := pool' }) := by
  rw [insertValue_of_checks hens hpre]
  rcases ValuePool.intern_cases v w.pool with ⟨id, pool', hint, hle, hid⟩ | ⟨hint, -⟩
  · have hpool : onPool (ValuePool.intern v) w = (.ok id, { w with pool := pool' }) := by
      unfold onPool
      rw [hint]
    rw [Exec.bind_ok hpool]
    exact Or.inr ⟨pool', _, h.treeStep (simM_const hid) (fun h => by simp at h) (s := ()) hle bits hlen,
      rfl⟩
  · have hpool : onPool (ValuePool.intern v) w = (.error .panic, w) := by
      unfold onPool
      rw [hint]
    rw [Exec.bind_error hpool]
    exact Or.inl rfl

/-- A call of `insert_with` that is not rejected. -/
theorem Settles.insertWith_treeStep {τ : Type} (h : w.Settles l r) {net : IpNet} {bits : BitVec 128}
    {len : ℕ} (hens : w.ensureInsertable net = .ok ())
    (hpre : toTreePrefix net w.ipVersion = .ok (bits, len)) (hlen : len ≤ w.ipVersion.treeDepth)
    (op : Option Value → τ → Option Value × τ) (t : τ) : ∃ res,
      TreeStep (σ := ValuePool × τ) Prod.fst Prod.snd op w l r (bits.msbs.take len) (w.pool, t) res ∧
        insertWith net op (w, t) =
          (res.1, { w with tree := res.2.1, pool := res.2.2.1 }, res.2.2.2) := by
  rw [insertWith_of_checks hens hpre]
  exact ⟨_, h.treeStep (sim_leafOpM op) (fun h => leafOp_error op h) (s := (w.pool, t))
    (ValuePool.Le.refl w.pool) bits hlen, rfl⟩

/-- How a call of `insert_value` can end. -/
inductive ValueStep (net : IpNet) (v : Value) (w : Writer) (l r : BitTrie (Leaf Value)) :
    Except Fault Unit × Writer → Prop
  | rejected {e} (hno : ¬ w.Accepts net) : ValueStep net v w l r (.error (.err e), w)
  | done {w'} (l' r' p) (hacc : w.Accepts net) (hp : netPath w.ipVersion net = some p)
      (hopt : w'.toWriterBuilder = w.toWriterBuilder) (h : w'.Settles l' r')
      (heval : ∀ q, w.ipVersion.treeDepth ≤ q.length → (node false l' r').eval q =
        if p <+: q then ((node false l r).eval q).apply fun _ => some v
        else (node false l r).eval q)
      (hlen : w.tree.nodes.length ≤ w'.tree.nodes.length) : ValueStep net v w l r (.ok (), w')
  | full {w'} (l' r') (hacc : w.Accepts net) (hopt : w'.toWriterBuilder = w.toWriterBuilder)
      (h : w'.Settles l' r') : ValueStep net v w l r (.error (fullFault w'.tree), w')
  | panic {w'} : ValueStep net v w l r (.error .panic, w')

theorem Settles.valueStep (h : w.Settles l r) (net : IpNet) (v : Value) :
    ValueStep net v w l r (insertValue net v w) := by
  rcases checks_cases w net with ⟨hno, e, herr⟩ | ⟨hacc, bits, len, hens, hpre, hlen, hpath⟩
  · have hw : insertValue net v w = (.error (.err e), w) := herr _ w
    rw [hw]
    exact .rejected hno
  · have hp : (bits.msbs.take len).length ≤ w.ipVersion.treeDepth := by
      rw [List.length_take]
      omega
    rcases h.insertValue_treeStep hens hpre hlen v with hpanic | ⟨pool', res, hstep, hcall⟩
    · rw [hpanic]
      exact .panic
    · rw [hcall]
      clear hcall
      cases hstep with
      | @done t' s' lr hrun hset hmono =>
        exact .done lr.1 lr.2 _ hacc hpath rfl hset
          (fun q hq => eval_of_updateM_fn hrun (hp.trans hq)) hmono
      | fault => exact .panic
      | @full t' l' r' hset =>
        let w' : Writer := { w with tree := t', pool := pool' }
        have hset' : w'.Settles l' r' := hset
        have hout : ValueStep net v w l r (.error (fullFault w'.tree), w') := .full l' r' hacc rfl hset'
        exact hout

/-- How a call of `insert_with` can end. -/
inductive WithStep {τ : Type} (net : IpNet) (w : Writer) (t : τ) :
    Except Fault Unit × Writer × τ → Prop
  | rejected {e} (hno : ¬ w.Accepts net) : WithStep net w t (.error (.err e), w, t)
  | accepted {res w' t'} (l' r') (hacc : w.Accepts net)
      (hopt : w'.toWriterBuilder = w.toWriterBuilder) (h : w'.Settles l' r')
      (hres : res = .ok () ∨ res = .error (fullFault w'.tree)) : WithStep net w t (res, w', t')
  | panic {w' t'} : WithStep net w t (.error .panic, w', t')

theorem Settles.withStep {τ : Type} (h : w.Settles l r) (net : IpNet)
    (op : Option Value → τ → Option Value × τ) (t : τ) :
    WithStep net w t (insertWith net op (w, t)) := by
  rcases checks_cases w net with ⟨hno, e, herr⟩ | ⟨hacc, bits, len, hens, hpre, hlen, -⟩
  · have hw : insertWith net op (w, t) = (.error (.err e), (w, t)) := herr _ (w, t)
    rw [hw]
    exact .rejected hno
  · obtain ⟨res, hstep, hcall⟩ := h.insertWith_treeStep hens hpre hlen op t
    rw [hcall]
    cases hstep with
    | done lr _ hset _ => exact .accepted lr.1 lr.2 hacc rfl hset (Or.inl rfl)
    | fault => exact .panic
    | full l' r' hset => exact .accepted l' r' hacc rfl hset (Or.inr rfl)

/-- The writer keeps its options and settles again. -/
def Rests (w w' : Writer) : Prop :=
  w'.toWriterBuilder = w.toWriterBuilder ∧ ∃ l r, w'.Settles l r

theorem Settles.insertValue_rests (h : w.Settles l r) (net : IpNet) (v : Value)
    (hno : (insertValue net v w).1 ≠ .error .panic) : w.Rests (insertValue net v w).2 := by
  have hstep := h.valueStep net v
  generalize insertValue net v w = res at hstep hno
  cases hstep with
  | rejected _ => exact ⟨rfl, l, r, h⟩
  | done l' r' _ _ _ hopt h' _ _ => exact ⟨hopt, l', r', h'⟩
  | full l' r' _ hopt h' => exact ⟨hopt, l', r', h'⟩
  | panic => exact absurd rfl hno

theorem Settles.insertWith_rests {τ : Type} (h : w.Settles l r) (net : IpNet)
    (op : Option Value → τ → Option Value × τ) (t : τ)
    (hno : (insertWith net op (w, t)).1 ≠ .error .panic) : w.Rests (insertWith net op (w, t)).2.1 := by
  have hstep := h.withStep net op t
  generalize insertWith net op (w, t) = res at hstep hno
  cases hstep with
  | rejected _ => exact ⟨rfl, l, r, h⟩
  | accepted l' r' _ hopt h' _ => exact ⟨hopt, l', r', h'⟩
  | panic => exact absurd rfl hno

theorem insertAll_rests (v : Value) : ∀ (nets : List IpNet) {w : Writer}
    {l r : BitTrie (Leaf Value)}, w.Settles l r → (insertAll v nets w).1 ≠ .error .panic →
    w.Rests (insertAll v nets w).2
  | [], w, l, r, h, _ => ⟨rfl, l, r, h⟩
  | net :: nets, w, l, r, h, hno => by
    have hkeep := h.insertValue_rests net v
    rw [insertAll_cons] at hno ⊢
    generalize insertValue net v w = res at hkeep hno ⊢
    rcases res with ⟨e | _, w'⟩
    · exact hkeep hno
    · obtain ⟨hopt, l', r', h'⟩ := hkeep (by simp)
      obtain ⟨hopt', hset⟩ := insertAll_rests v nets h' hno
      exact ⟨hopt'.trans hopt, hset⟩

/-- Every writer that calls have led to settles. -/
theorem Grown.settles (h : w.Grown) : ∃ l r, w.Settles l r := by
  induction h with
  | @build b w hb =>
    obtain ⟨w', l, r, hb', -, hinv, -⟩ := build_inv b
    rw [hb, Except.ok.injEq] at hb'
    subst hb'
    exact ⟨l, r, hinv.settles⟩
  | insertValue _ net v hres ih =>
    obtain ⟨l, r, h⟩ := ih
    exact (h.insertValue_rests net v hres).2
  | insertWith _ net op s hres ih =>
    obtain ⟨l, r, h⟩ := ih
    exact (h.insertWith_rests net op s hres).2
  | insertValueMerged _ net v strategy hres ih =>
    obtain ⟨l, r, h⟩ := ih
    cases strategy with
    | replace => exact (h.insertValue_rests net v hres).2
    | topLevelMerge => exact (h.insertWith_rests net _ () hres).2
    | deepMerge => exact (h.insertWith_rests net _ () hres).2
  | @insertRange w _ start stop v hres ih =>
    obtain ⟨l, r, h⟩ := ih
    cases hnets : rangeToNetworks start stop with
    | error e =>
      rw [insertRange_error hnets]
      exact ⟨l, r, h⟩
    | ok nets =>
      rw [insertRange_eq hnets] at hres ⊢
      exact (insertAll_rests v nets h hres).2

end Calls

section Get

/-- A path as long as the addresses ends above the leaves of the halves of a host route. -/
theorem Settles.get [Ipnet] (h : w.Settles l r) {ip : IpAddr} {q : List Bool}
    (hq : addrPath w.ipVersion ip = some q) :
    w.get ip = .ok (((node false l r).coverAt q).bind Leaf.value) := by
  obtain ⟨li, ri, fp, hst, -, hkl, hkr, hli, hri⟩ := h.ids
  have hrel : (node false li ri).Rel (IdRel w.pool) (node false l r) := ⟨rfl, hli, hri⟩
  obtain ⟨hu, ha, hs⟩ := KidShape.node hkl hkr
  have hanchored := (compactable_of_unaliased hu ha hs).toAnchored
  rcases toTreePrefix_cases (.ofAddr ip) w.ipVersion with
    ⟨bits, len, hpre, hlen, hpath⟩ | ⟨-, -, -, hpath, -⟩
  · rw [netPath_ofAddr, hq, Option.some.injEq] at hpath
    have hlq := length_addrPath hq
    have hdepth := (treeDepth_le w.ipVersion).2
    have hlen' : len = w.ipVersion.treeDepth := by
      rw [hpath, List.length_take, BitVec.length_msbs] at hlq
      omega
    have hfrom : pathFrom bits w.ipVersion.treeDepth 0 = q := by
      rw [hpath, hlen']
      exact List.drop_zero
    have htree : w.tree.get bits w.ipVersion.treeDepth =
        .ok (((node false li ri).coverAt q).bind Leaf.value) := by
      rw [Tree.get_lookup hst hanchored bits hdepth, hfrom, BitTrie.lookup_eq_bind]
      refine ha.mono fun a hne p => ?_
      cases a <;> first | rfl | exact absurd rfl hne
    unfold Writer.get
    rw [hpre]
    simp only [htree]
    rcases hrel.coverAt q with ⟨h1, h2⟩ | ⟨a, b, h1, h2, hab⟩
    · rw [h1, h2]
      rfl
    · rw [h1, h2]
      cases a <;> cases b <;> simp only [IdRel, Leaf.Rel] at hab <;> try rfl
      simp only [Option.bind_some, Leaf.value, ValuePool.get, bind, Except.bind, hab]
  · rw [netPath_ofAddr, hq] at hpath
    cases hpath

theorem value_coverAt_congr {l' r' : BitTrie (Leaf Value)} (hu : (node false l r).Unpinned)
    (hu' : (node false l' r').Unpinned)
    (hred : l.ReducedOn (· ≠ .reserved) ∧ r.ReducedOn (· ≠ .reserved))
    (hred' : l'.ReducedOn (· ≠ .reserved) ∧ r'.ReducedOn (· ≠ .reserved))
    (heval : ∀ q, (node false l r).eval q = (node false l' r').eval q) {q : List Bool}
    (hq : q ≠ []) : ((node false l r).coverAt q).bind Leaf.value =
      ((node false l' r').coverAt q).bind Leaf.value := by
  have hcongr := fun (a : Leaf Value) (ha : a ≠ .reserved) =>
    coverAt_congr hu hu' hred hred' heval hq ha
  have hnone : ∀ {o o' : Option (Leaf Value)}, (∀ a, a ≠ .reserved → (o = some a ↔ o' = some a)) →
      ∀ v, o.bind Leaf.value = some v → o'.bind Leaf.value = some v := by
    intro o o' h v hv
    obtain ⟨a, rfl, ha⟩ := Option.bind_eq_some_iff.mp hv
    rw [(h a fun hr => by rw [hr] at ha; cases ha).mp rfl, Option.bind_some, ha]
  exact Option.ext fun v => ⟨hnone hcongr v, hnone (fun a ha => (hcongr a ha).symm) v⟩

/-- An address has a value where its leaf and all below it have it. -/
theorem Settles.get_eq_some_iff [Ipnet] (h : w.Settles l r) (hlen : w.tree.nodes.length < 2 ^ 32)
    {ip : IpAddr} {q : List Bool} (hq : addrPath w.ipVersion ip = some q) (v : Value) :
    w.get ip = .ok (some v) ↔ ∀ s, (node false l r).eval (q ++ s) = .data v := by
  have hne : q ≠ [] := fun hnil => by
    have := length_addrPath hq
    have := (treeDepth_le w.ipVersion).1
    rw [hnil] at *
    simp only [List.length_nil] at *
    omega
  rw [h.get hq, Except.ok.injEq, ← coverAt_node_iff h.unpinned (h.reduced hlen) hne (by simp)]
  constructor
  · intro hv
    obtain ⟨a, ha, hav⟩ := Option.bind_eq_some_iff.mp hv
    rw [ha]
    cases a <;> simp only [Leaf.value, Option.some.injEq, reduceCtorEq] at hav
    rw [hav]
  · intro ha
    rw [ha]
    rfl

end Get

end Writer

end MmdbWriter
