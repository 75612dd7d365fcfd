import MmdbWriter.Lib.TrieCalls
import MmdbWriter.Proofs.Runs

/-!
# Operations that remember

`insert_with` takes an operation that may answer each call differently. It is called once for each
leaf of the tree under the network, except that a leaf around the whole network is split at the end
of the network's bits and asked for twice.
-/

namespace MmdbWriter

open BitTrie (leaf node updateM SimM callAll subtries TwiceAlike)

section Leaves

variable {τ : Type}

/-- What an operation makes of a leaf that may hold data. -/
def applyM (op : Option Value → τ → Option Value × τ) : Leaf Value → Exec Fault τ (Leaf Value)
  | .noData => fun t => (.ok ((op none t).1.elim .noData .data), (op none t).2)
  | .data v => fun t => (.ok ((op (some v) t).1.elim .noData .data), (op (some v) t).2)
  | .reserved => pure .reserved
  | .aliased => pure .aliased

/-- The existing value of a leaf that may hold data. -/
def Leaf.holds : Leaf Value → Option (Option Value)
  | .noData => some none
  | .data v => some (some v)
  | .reserved | .aliased => none

/-- The answers of an operation to the existing values, one call after the other, and what it has
captured then. -/
def answers (op : Option Value → τ → Option Value × τ) :
    List (Option Value) → τ → List (Option Value) × τ
  | [], t => ([], t)
  | old :: olds, t =>
    ((op old t).1 :: (answers op olds (op old t).2).1, (answers op olds (op old t).2).2)

variable {op : Option Value → τ → Option Value × τ}

theorem applyM_of_holds {a : Leaf Value} {old : Option Value} (h : a.holds = some old) (t : τ) :
    applyM op a t = (.ok ((op old t).1.elim .noData .data), (op old t).2) := by
  cases a <;> simp only [Leaf.holds, Option.some.injEq, reduceCtorEq] at h <;> subst h <;> rfl

theorem applyM_of_not_holds {a : Leaf Value} (h : a.holds = none) : applyM op a = pure a := by
  cases a <;> first | rfl | simp [Leaf.holds] at h

theorem value_elim (v : Option Value) : (v.elim Leaf.noData Leaf.data).value = v := by
  cases v <;> rfl

theorem applyM_iff {b : Leaf Value} (hb : b.holds = none) {a a' : Leaf Value} {t t' : τ}
    (h : applyM op a t = (.ok a', t')) : a' = b ↔ a = b := by
  cases ha : a.holds with
  | none =>
    rw [applyM_of_not_holds ha, Exec.pure_apply, Prod.mk.injEq, Except.ok.injEq] at h
    rw [h.1]
  | some old =>
    rw [applyM_of_holds ha, Prod.mk.injEq, Except.ok.injEq] at h
    have h1 : a' ≠ b := by
      rw [← h.1]
      cases (op old t).1 <;> rintro rfl <;> simp [Leaf.holds] at hb
    have h2 : a ≠ b := by
      rintro rfl
      rw [ha] at hb
      cases hb
    exact ⟨fun hh => absurd hh h1, fun hh => absurd hh h2⟩

/-- The calls over a row of leaves are the answers to what the leaves hold. -/
theorem callAll_applyM : ∀ {labels as : List (Leaf Value)} {t t' : τ},
    callAll (applyM op) labels t = (.ok as, t') →
    (answers op (labels.filterMap Leaf.holds) t).2 = t' ∧
      ∀ (i : ℕ) (a b : Leaf Value) old, labels[i]? = some a → as[i]? = some b → a.holds = some old →
        ∃ k : ℕ, (labels.filterMap Leaf.holds)[k]? = some old ∧
          (answers op (labels.filterMap Leaf.holds) t).1[k]? = some b.value
  | [], as, t, t', h => by
    simp only [callAll, Exec.pure_apply, Prod.mk.injEq, Except.ok.injEq] at h
    obtain ⟨rfl, rfl⟩ := h
    exact ⟨rfl, fun i a b old ha => by simp at ha⟩
  | a :: labels, as, t, t', h => by
    obtain ⟨b, t₁, h1, h2⟩ := Exec.bind_eq_ok h
    obtain ⟨bs, t₂, h3, h4⟩ := Exec.bind_eq_ok h2
    simp only [Exec.pure_apply, Prod.mk.injEq, Except.ok.injEq] at h4
    obtain ⟨rfl, rfl⟩ := h4
    obtain ⟨hlast, hall⟩ := callAll_applyM h3
    cases ha : a.holds with
    | none =>
      rw [applyM_of_not_holds ha, Exec.pure_apply, Prod.mk.injEq, Except.ok.injEq] at h1
      obtain ⟨rfl, rfl⟩ := h1
      rw [List.filterMap_cons_none ha]
      refine ⟨hlast, fun i c d old hc hd hold => ?_⟩
      rcases i with _ | i
      · simp only [List.getElem?_cons_zero, Option.some.injEq] at hc
        rw [← hc, ha] at hold
        cases hold
      · exact hall i c d old hc hd hold
    | some old₀ =>
      rw [applyM_of_holds ha, Prod.mk.injEq, Except.ok.injEq] at h1
      obtain ⟨rfl, rfl⟩ := h1
      rw [List.filterMap_cons_some ha]
      refine ⟨hlast, fun i c d old hc hd hold => ?_⟩
      rcases i with _ | i
      · simp only [List.getElem?_cons_zero, Option.some.injEq] at hc hd
        rw [← hc, ha, Option.some.injEq] at hold
        refine ⟨0, by simp [hold], ?_⟩
        rw [← hd, value_elim]
        rfl
      · obtain ⟨k, hk, hans⟩ := hall i c d old hc hd hold
        exact ⟨k + 1, hk, hans⟩

end Leaves

namespace Writer

section Operation

variable {τ : Type} (op : Option Value → τ → Option Value × τ)

/-- The closure of `insert_with` asks for the answer to the old value, when the id is one of the
pool. -/
theorem leafOp_eq_intern {pool : ValuePool} {oldId : Option ValueId} {old : Option Value} (t : τ)
    (h : oldId.bind (fun id => pool.values[id]?) = old) (hsome : oldId.isSome = old.isSome) :
    leafOp op oldId (pool, t) = (match (op old t).1 with
      | some v => Exec.onFst (ValuePool.intern v) >>= fun id => pure (some id)
      | none => pure none : Exec Fault (ValuePool × τ) (Option ValueId)) (pool, (op old t).2) := by
  rcases oldId with _ | id
  · simp only [Option.bind_none] at h
    subst h
    rfl
  · rcases old with _ | v
    · simp at hsome
    · have hv : pool.values[id]? = some v := h
      have hget : pool.get id = .ok v := by
        unfold ValuePool.get
        rw [hv]
      unfold leafOp
      rw [Exec.bind_ok (Exec.read_apply _)]
      simp only [hget]
      rfl

/-- The closure of `insert_with`, when the id is one of the pool. -/
theorem leafOp_eq {pool : ValuePool} {oldId : Option ValueId} {old : Option Value} (t : τ)
    (h : oldId.bind (fun id => pool.values[id]?) = old) (hsome : oldId.isSome = old.isSome) :
    leafOp op oldId (pool, t) = match (op old t).1 with
      | none => (.ok none, (pool, (op old t).2))
      | some v => match ValuePool.intern v pool with
        | (.ok id, pool') => (.ok (some id), (pool', (op old t).2))
        | (.error e, pool') => (.error e, (pool', (op old t).2)) := by
  rw [leafOp_eq_intern op t h hsome]
  cases (op old t).1 with
  | none => rfl
  | some v =>
    dsimp only
    rw [Exec.bind_apply, Exec.onFst_apply]
    rcases ValuePool.intern v pool with ⟨_ | id, pool'⟩ <;> rfl

/-- A leaf that may hold data is asked for its new value once. -/
theorem leafM_leafOp_eq {pool : ValuePool} {a : Leaf ValueId} {b : Leaf Value}
    (hab : IdRel pool a b) {old : Option Value} (hold : b.holds = some old) (t : τ) :
    leafM (leafOp op) a (pool, t) = match (op old t).1 with
      | none => (.ok .noData, (pool, (op old t).2))
      | some v => match ValuePool.intern v pool with
        | (.ok id, pool') => (.ok (.data id), (pool', (op old t).2))
        | (.error e, pool') => (.error e, (pool', (op old t).2)) := by
  have hleaf : ∀ o : Option ValueId, o.bind (fun id => pool.values[id]?) = old →
      o.isSome = old.isSome → (leafOp op o >>= fun id =>
        pure (id.elim Leaf.noData Leaf.data)) (pool, t) = match (op old t).1 with
      | none => (.ok .noData, (pool, (op old t).2))
      | some v => match ValuePool.intern v pool with
        | (.ok id, pool') => (.ok (.data id), (pool', (op old t).2))
        | (.error e, pool') => (.error e, (pool', (op old t).2)) := by
    intro o ho hsome
    rw [Exec.bind_apply, leafOp_eq op t ho hsome]
    cases (op old t).1 with
    | none => rfl
    | some v =>
      dsimp only
      rcases ValuePool.intern v pool with ⟨_ | id, pool'⟩ <;> rfl
  cases a <;> cases b <;> simp only [IdRel, Leaf.Rel, Leaf.holds, Option.some.injEq,
    reduceCtorEq] at hab hold
  · exact hleaf none (by rw [← hold]; rfl) (by rw [← hold]; rfl)
  · exact hleaf (some _) (by rw [← hold]; exact hab) (by rw [← hold]; rfl)

theorem leafM_of_not_holds {pool : ValuePool} {a : Leaf ValueId} {b : Leaf Value}
    (hab : IdRel pool a b) (hold : b.holds = none) : leafM (leafOp op) a = pure a := by
  cases a <;> cases b <;> simp only [IdRel, Leaf.Rel, Leaf.holds, reduceCtorEq] at hab hold <;> rfl

/-- The closure on ids does what the operation does on values. -/
theorem sim_leafOpM : SimM (fun s s' : ValuePool × τ => s.1.Le s'.1) (fun s => IdRel s.1) Prod.snd
    (leafM (leafOp op)) (applyM op) where
  refl s := ValuePool.Le.refl s.1
  trans h h' := h.trans h'
  mono h _ _ hab := hab.mono h
  inj _ _ _ _ h h' := h.inj h'
  step {s s' a a' b} hab h := by
    obtain ⟨pool, t⟩ := s
    cases hold : b.holds with
    | none =>
      rw [leafM_of_not_holds op hab hold, Exec.pure_apply, Prod.mk.injEq, Except.ok.injEq] at h
      obtain ⟨rfl, rfl⟩ := h
      exact ⟨ValuePool.Le.refl pool, b, by rw [applyM_of_not_holds hold, Exec.pure_apply], hab⟩
    | some old =>
      rw [leafM_leafOp_eq op hab hold] at h
      rw [applyM_of_holds hold]
      cases hans : (op old t).1 with
      | none =>
        rw [hans] at h
        simp only [Prod.mk.injEq, Except.ok.injEq] at h
        obtain ⟨rfl, rfl⟩ := h
        exact ⟨ValuePool.Le.refl pool, .noData, rfl, trivial⟩
      | some v =>
        rw [hans] at h
        rcases ValuePool.intern_cases v pool with ⟨id, pool', hint, hle, hid⟩ | ⟨hint, -⟩
        · simp only [hint, Prod.mk.injEq, Except.ok.injEq] at h
          obtain ⟨rfl, rfl⟩ := h
          exact ⟨hle, .data v, rfl, hid⟩
        · simp [hint] at h

/-- What stops the closure is a panic. -/
theorem leafOp_error {o : Option ValueId} {e : Fault} {s s' : ValuePool × τ}
    (h : leafOp op o s = (.error e, s')) : e = .panic := by
  obtain ⟨pool, t⟩ := s
  by_cases hmiss : o.isSome ∧ o.bind (fun id => pool.values[id]?) = none
  · obtain ⟨id, rfl⟩ := Option.isSome_iff_exists.mp hmiss.1
    have hget : pool.get id = .error .panic := by
      unfold ValuePool.get
      have hv : pool.values[id]? = none := hmiss.2
      rw [hv]
    unfold leafOp at h
    rw [Exec.bind_ok (Exec.read_apply _)] at h
    simp only [hget, Exec.bind_apply, Exec.lift_apply, Prod.mk.injEq, Except.error.injEq] at h
    exact h.1.symm
  · have hsome : o.isSome = (o.bind fun id => pool.values[id]?).isSome := by
      rcases o with _ | id
      · rfl
      · cases hv : pool.values[id]? with
        | none => exact absurd ⟨rfl, by simpa using hv⟩ hmiss
        | some v => simp [hv]
    rw [leafOp_eq op t rfl hsome] at h
    cases hans : (op (o.bind fun id => pool.values[id]?) t).1 with
    | none => simp [hans] at h
    | some v =>
      rcases ValuePool.intern_cases v pool with ⟨id, pool', hint, -, -⟩ | ⟨hint, -⟩
      · simp [hans, hint] at h
      · simp only [hans, hint, Prod.mk.injEq, Except.error.injEq] at h
        exact h.1.symm

theorem leafM_leafOp_error {a : Leaf ValueId} {e : Fault} {s s' : ValuePool × τ}
    (h : leafM (leafOp op) a s = (.error e, s')) : e = .panic := by
  cases a with
  | noData => exact (Exec.bind_eq_error h).elim (leafOp_error op) fun ⟨_, _, _, h'⟩ => by simp at h'
  | data id => exact (Exec.bind_eq_error h).elim (leafOp_error op) fun ⟨_, _, _, h'⟩ => by simp at h'
  | reserved => simp [leafM] at h
  | aliased => simp [leafM] at h

end Operation

section Call

variable [Ipnet] {τ : Type} {w : Writer} {l r : BitTrie (Leaf Value)}

/-- How a call of `insert_with` can end. -/
inductive WithOutcome (op : Option Value → τ → Option Value × τ) (net : IpNet) (w : Writer)
    (l r : BitTrie (Leaf Value)) (t : τ) : Except Fault Unit × Writer × τ → Prop
  | rejected {e} (hno : ¬ w.Accepts net) : WithOutcome op net w l r t (.error (.err e), w, t)
  | done {w' t'} (p lr) (hp : netPath w.ipVersion net = some p)
      (hrun : updateM (applyM op) p l r t = (.ok lr, t'))
      (hopt : w'.toWriterBuilder = w.toWriterBuilder) (hm : w'.Models lr.1 lr.2)
      (hlen : w.tree.nodes.length ≤ w'.tree.nodes.length) :
      WithOutcome op net w l r t (.ok (), w', t')
  | full {w'} (l' r') (hopt : w'.toWriterBuilder = w.toWriterBuilder) (hm : w'.Models l' r')
      (hl : BitTrie.SameMap (w.ipVersion.treeDepth - 1) l l')
      (hr : BitTrie.SameMap (w.ipVersion.treeDepth - 1) r r')
      (hlen : 2 ^ 32 ≤ w'.tree.nodes.length) :
      WithOutcome op net w l r t (.error (fullFault w'.tree), w', t)
  | panic {w' t'} : WithOutcome op net w l r t (.error .panic, w', t')

theorem Inv.insertWith_outcome (h : w.Inv l r) (net : IpNet)
    (op : Option Value → τ → Option Value × τ) (t : τ) :
    WithOutcome op net w l r t (insertWith net op (w, t)) := by
  obtain ⟨hlt, hrt⟩ := h.height_lt
  have hdepth : w.ipVersion.treeDepth ≤ 128 := by cases w.ipVersion <;> decide
  rcases checks_cases w net with ⟨hno, e, herr⟩ | ⟨-, bits, len, hens, hpre, hlen, hpath⟩
  · have hw : insertWith net op (w, t) = (.error (.err e), (w, t)) := herr _ (w, t)
    rw [hw]
    exact .rejected hno
  · obtain ⟨li, ri, fp, hst, hnd, hli, hri⟩ := h.models
    have hspec := insertAtNode_spec (leafOp op) bits (show len ≤ 128 by omega) 255
      (w.ipVersion.treeDepth - 1) 0 0 w.tree (w.pool, t) li ri fp hst hnd
      (by rw [hli.height]; omega) (by rw [hri.height]; omega) (by omega) (by omega) (by omega)
    have hfrom : pathFrom bits len 0 = bits.msbs.take len := List.drop_zero
    rw [hfrom] at hspec
    rw [insertWith_of_checks hens hpre]
    unfold onTreePool Tree.insert
    generalize Tree.insertAtNode (leafOp op) bits len 255 0 0 (w.tree, w.pool, t) = res at hspec
    cases hspec with
    | @done li' ri' s' t' fp' hm hst' hf =>
      obtain ⟨-, lr, hrun, hl', hr'⟩ := BitTrie.updateM_simM (sim_leafOpM op) hli hri hm
      exact .done _ lr hpath hrun rfl ⟨li', ri', fp', hst', hf.nodup, hl', hr'⟩ hf.length_le
    | @fault e s' t' hm _ =>
      obtain rfl := BitTrie.updateM_error (P := fun e => e = .panic)
        (fun h => leafM_leafOp_error op h) hm
      exact .panic
    | @full li' ri' t' fp' hp hsl hsr hst' hf hfull =>
      have hright : ∀ a b b', IdRel w.pool a b → IdRel w.pool a b' → b = b' :=
        fun a b b' h1 h2 => h1.right_unique h2
      have hk : (bits.msbs.take len).length - 1 ≤ w.ipVersion.treeDepth - 1 := by
        rw [List.length_take]
        omega
      obtain ⟨l', hl', hsl'⟩ := exists_rel_sameMap (R := fun _ : Unit => IdRel w.pool) (s := ())
        hright hli (hsl.sameMap hk (by rw [hli.height]; omega))
      obtain ⟨r', hr', hsr'⟩ := exists_rel_sameMap (R := fun _ : Unit => IdRel w.pool) (s := ())
        hright hri (hsr.sameMap hk (by rw [hri.height]; omega))
      let w' : Writer := { w with tree := t' }
      have hm' : w'.Models l' r' := ⟨li', ri', fp', hst', hf.nodup, hl', hr'⟩
      have hout : WithOutcome op net w l r t (.error (fullFault w'.tree), w', t) :=
        .full l' r' rfl hm' hsl' hsr' hfull
      exact hout

/-- Two calls on what the leaf around the path holds answer alike. -/
def AlikeAt (op : Option Value → τ → Option Value × τ) (t : τ) (l r : BitTrie (Leaf Value))
    (p : List Bool) : Prop :=
  ∀ a old, (node false l r).coverAt p = some a → a.holds = some old →
    (op old t).1 = (op old (op old t).2).1

omit [Ipnet] in
theorem twiceAlike_of_alikeAt {op : Option Value → τ → Option Value × τ} {t : τ} {p : List Bool}
    (h : AlikeAt op t l r p) {a : Leaf Value} (ha : (node false l r).coverAt p = some a) :
    TwiceAlike (applyM op) t a := by
  intro b t₁ c t₂ hb hc
  cases hold : a.holds with
  | none =>
    rw [applyM_of_not_holds hold, Exec.pure_apply, Prod.mk.injEq, Except.ok.injEq] at hb hc
    rw [← hb.1, ← hc.1]
  | some old =>
    rw [applyM_of_holds hold, Prod.mk.injEq, Except.ok.injEq] at hb hc
    rw [← hb.1, ← hc.1, ← hb.2, h a old ha hold]

omit [Ipnet] in
/-- The invariant after a call that ended well, if a host route was answered alike. -/
theorem Inv.withOp_done {w' : Writer} {t t' : τ} {op : Option Value → τ → Option Value × τ}
    {p : List Bool} {lr : BitTrie (Leaf Value) × BitTrie (Leaf Value)} (h : w.Inv l r)
    (hp : p.length ≤ w.ipVersion.treeDepth)
    (hrun : updateM (applyM op) p l r t = (.ok lr, t'))
    (hopt : w'.toWriterBuilder = w.toWriterBuilder) (hm : w'.Models lr.1 lr.2)
    (hlen : w.tree.nodes.length ≤ w'.tree.nodes.length)
    (halike : p.length = w.ipVersion.treeDepth → AlikeAt op t l r p) : w'.Inv lr.1 lr.2 := by
  have hver : w'.ipVersion = w.ipVersion := by rw [hopt]
  have hpaths : w'.reservedPaths = w.reservedPaths := by rw [hopt]
  have hpos := treeDepth_pos w.ipVersion
  have hlt := h.height_lt
  have hkeep : ∀ b : Leaf Value, b.holds = none → ∀ q,
      (node false lr.1 lr.2).eval q = b ↔ (node false l r).eval q = b := fun b hb =>
    BitTrie.updateM_iff false (Q := (· = b)) (fun ha => applyM_iff hb ha) hrun
  refine ⟨hm, ⟨rfl, BitTrie.updateM_joined BitTrie.joined_unpinned h.unpinned.2.1 h.unpinned.2.2
    hrun⟩, ?_, fun q => ?_, fun q hq => ?_, fun hlt' => ?_⟩
  · have hh := BitTrie.updateM_height false (n := w.ipVersion.treeDepth - 1)
      (show l.height ≤ _ by omega) (show r.height ≤ _ by omega) (by omega)
      (fun hlen a ha => twiceAlike_of_alikeAt (halike (by omega)) ha) hrun
    rw [hver]
    simp only [BitTrie.height]
    omega
  · rw [Ne, hkeep .aliased rfl]
    exact h.not_aliased q
  · rw [hver] at hq
    rw [hkeep .reserved rfl, hpaths]
    exact h.reserved_iff q hq
  · have hred := h.reduced (by omega)
    exact BitTrie.updateM_joined (BitTrie.joined_reducedOn _) hred.1 hred.2 hrun

end Call

end Writer

end MmdbWriter
