import MmdbWriter.Proofs.Capacity

/-!
# Where values come from

A writer keeps no value but those it was given and those its callers made of them. So a property of the
inserted values that the operations keep is one of every value that `get` returns.
-/

namespace MmdbWriter

open Exec (Preserves)

namespace Tree

variable {σ : Type} {P : σ → Prop} {op : Option ValueId → Exec Fault σ (Option ValueId)}

/-- An insert touches what the operation captures through the operation only. -/
theorem preserves_insertAtRecord (hop : ∀ o, Preserves P (op o))
    {descend : ℕ → Exec Fault (Tree × σ) Unit} (hd : ∀ c, Preserves (fun s => P s.2) (descend c))
    (i : ℕ) (b : Bool) (d p : ℕ) :
    Preserves (fun s : Tree × σ => P s.2) (insertAtRecord descend op i b d p) := by
  have htree : ∀ {α : Type} (x : Exec Fault Tree α), Preserves (fun s : Tree × σ => P s.2) x.onFst :=
    fun _ _ h => h
  have hcall : ∀ o, Preserves (fun s : Tree × σ => P s.2) (op o).onSnd := fun o s h => hop o s.2 h
  have hmerge : ∀ c (k : Option Record → Exec Fault (Tree × σ) Unit),
      (∀ record, Preserves (fun s : Tree × σ => P s.2) (k (some record))) →
      Preserves (fun s : Tree × σ => P s.2) (k none) →
      Preserves (fun s : Tree × σ => P s.2) ((tryMergeNode c).onFst >>= k) :=
    fun c k hsome hnone => (htree _).bind fun merged => by
      cases merged with
      | some record => exact hsome record
      | none => exact hnone
  unfold insertAtRecord
  refine (htree _).bind fun node => ?_
  cases node.child b with
  | node c => exact (hd c).bind fun _ => hmerge c _ (fun _ => htree _) (Exec.preserves_pure ())
  | fixedNode c => exact hd c
  | aliased _ | reserved => exact Exec.preserves_pure ()
  | noData =>
    dsimp only
    split_ifs
    · refine (hcall none).bind fun id => ?_
      cases id with
      | some id => exact htree _
      | none => exact Exec.preserves_pure ()
    · exact (htree _).bind fun newIdx => (htree _).bind fun _ => (hd newIdx).bind fun _ =>
        hmerge newIdx _ (fun _ => htree _) (Exec.preserves_pure ())
  | data oldId =>
    dsimp only
    split_ifs
    · refine (hcall _).bind fun id => ?_
      cases id with
      | some id => exact htree _
      | none => exact htree _
    · exact (htree _).bind fun newIdx => (htree _).bind fun _ => (hd newIdx).bind fun _ =>
        hmerge newIdx _ (fun _ => htree _) (Exec.preserves_pure ())

theorem preserves_insertAtNode (hop : ∀ o, Preserves P (op o)) (bits : BitVec 128) (p : ℕ) :
    ∀ room i d, Preserves (fun s : Tree × σ => P s.2) (insertAtNode op bits p room i d) := by
  intro room
  induction room with
  | zero => exact fun _ _ => Exec.preserves_stop _
  | succ room ih =>
    intro i d
    unfold insertAtNode
    dsimp only
    split_ifs
    · exact (preserves_insertAtRecord hop (fun c => ih c _) i false _ p).bind fun _ =>
        preserves_insertAtRecord hop (fun c => ih c _) i true _ p
    · exact (Exec.preserves_lift _).bind fun b =>
        preserves_insertAtRecord hop (fun c => ih c _) i b _ p

end Tree

/-- Every value of the pool has the property. -/
def ValuePool.Forall (Q : Value → Prop) (pool : ValuePool) : Prop := ∀ v ∈ pool.values, Q v

/-- The insert makes a value with the property of none and of one that has it. -/
def Insert.Keeps (Q : Value → Prop) (i : Insert) : Prop :=
  ∀ old v, (∀ u, old = some u → Q u) → i.op old = some v → Q v

/-- The call makes values with the property only. -/
def Call.Keeps (Q : Value → Prop) : Call → Prop
  | .insert i => i.Keeps Q
  | .range _ _ v => Q v

namespace Writer

variable {Q : Value → Prop} {τ : Type}

theorem preserves_intern {v : Value} (hv : Q v) :
    Preserves (ValuePool.Forall Q) (ValuePool.intern v) := by
  intro pool hpool
  unfold ValuePool.intern
  split
  · exact hpool
  · split_ifs
    · intro u hu
      rcases List.mem_append.mp hu with hu | hu
      · exact hpool u hu
      · rw [List.mem_singleton.mp hu]
        exact hv
    · exact hpool

/-- A call of the operation, on what it captures. -/
def callOp (op : Option Value → τ → Option Value × τ) (old : Option Value) :
    Exec Fault τ (Option Value) := fun t => (.ok (op old t).1, (op old t).2)

theorem preserves_leafOp {op : Option Value → τ → Option Value × τ}
    (hop : ∀ old t v, (∀ u, old = some u → Q u) → (op old t).1 = some v → Q v) (o : Option ValueId) :
    Preserves (fun s : ValuePool × τ => s.1.Forall Q) (leafOp op o) := by
  have hintern : ∀ v, Q v → Preserves (fun s : ValuePool × τ => s.1.Forall Q)
      (Exec.onFst (ValuePool.intern v) >>= fun id => pure (some id)) := fun v hv =>
    (preserves_intern hv).onFst.bind fun _ => Exec.preserves_pure _
  have happly : ∀ old, (∀ u, old = some u → Q u) →
      ∀ k : Option Value → Exec Fault (ValuePool × τ) (Option ValueId),
      (∀ v, Q v → Preserves (fun s : ValuePool × τ => s.1.Forall Q) (k (some v))) →
      Preserves (fun s : ValuePool × τ => s.1.Forall Q) (k none) →
      Preserves (fun s : ValuePool × τ => s.1.Forall Q) (Exec.onSnd (callOp op old) >>= k) := by
    rintro old hold k hsome hnone ⟨pool, t⟩ hpool
    have hcall : (Exec.onSnd (callOp op old) : Exec Fault (ValuePool × τ) _) (pool, t) =
        (.ok (op old t).1, (pool, (op old t).2)) := rfl
    rw [Exec.bind_ok hcall]
    cases hnew : (op old t).1 with
    | none => exact hnone _ hpool
    | some v => exact hsome v (hop old t v hold hnew) _ hpool
  rintro ⟨pool, t⟩ hpool
  cases o with
  | none =>
    unfold leafOp
    rw [Exec.bind_ok (Exec.read_apply (pool, t))]
    dsimp only
    rw [Exec.bind_ok (Exec.pure_apply _ _)]
    refine happly none (by simp) _ (fun v hv => ?_) ?_ (pool, t) hpool
    · exact hintern v hv
    · exact Exec.preserves_pure none
  | some id =>
    cases hv : pool.values[id]? with
    | none =>
      simp only [leafOp, ValuePool.get, Exec.bind_apply, Exec.read_apply, hv, Exec.lift_apply]
      exact hpool
    | some v =>
      have hold : ∀ u, some v = some u → Q u := fun u hu => by
        rw [← Option.some.inj hu]
        exact hpool v (List.mem_of_getElem? hv)
      have hget : (Exec.lift (pool.get id) : Exec Fault (ValuePool × τ) Value) (pool, t) =
          (.ok v, (pool, t)) := by
        rw [Exec.lift_apply, ValuePool.get, hv]
      unfold leafOp
      rw [Exec.bind_ok (Exec.read_apply (pool, t))]
      dsimp only
      rw [Exec.bind_ok hget, Exec.bind_ok (Exec.pure_apply _ _)]
      refine happly (some v) hold _ (fun u hu => ?_) ?_ (pool, t) hpool
      · exact hintern u hu
      · exact Exec.preserves_pure none

variable [Ipnet]

theorem preserves_insertValue (net : IpNet) {v : Value} (hv : Q v) :
    Preserves (fun w : Writer => w.pool.Forall Q) (insertValue net v) := by
  refine Exec.preserves_read.bind fun w => (Exec.preserves_lift _).bind fun _ =>
    (Exec.preserves_lift _).bind fun pre => ?_
  refine Preserves.bind (fun w hw => preserves_intern hv w.pool hw) fun id => ?_
  exact fun w hw => hw

theorem preserves_insertWith (net : IpNet) {op : Option Value → τ → Option Value × τ}
    (hop : ∀ old t v, (∀ u, old = some u → Q u) → (op old t).1 = some v → Q v) :
    Preserves (fun s : Writer × τ => s.1.pool.Forall Q) (insertWith net op) := by
  refine Exec.preserves_read.bind fun s => (Exec.preserves_lift _).bind fun _ =>
    (Exec.preserves_lift _).bind fun pre => ?_
  exact fun s hs => Tree.preserves_insertAtNode (P := fun s : ValuePool × τ => s.1.Forall Q)
    (preserves_leafOp hop) pre.1 pre.2 255 0 0 (s.1.tree, s.1.pool, s.2) hs

theorem preserves_insertWithFn (net : IpNet) {f : Option Value → Option Value}
    (hf : ∀ old v, (∀ u, old = some u → Q u) → f old = some v → Q v) :
    Preserves (fun w : Writer => w.pool.Forall Q) (insertWithFn net f) := fun w hw => by
  have hwith : Preserves (fun s : Writer × Unit => s.1.pool.Forall Q)
      (insertWith net fun old t => (f old, t)) := preserves_insertWith net fun old _ v => hf old v
  exact hwith (w, ()) hw

theorem preserves_exec {c : Call} (hc : c.Keeps Q) :
    Preserves (fun w : Writer => w.pool.Forall Q) (exec c) := by
  cases c with
  | insert i =>
    cases i with
    | value net v => exact preserves_insertValue net (hc none v (by simp) rfl)
    | withOp net f => exact preserves_insertWithFn net hc
    | merged net v strategy =>
      cases strategy with
      | replace => exact preserves_insertValue net (hc none v (by simp) rfl)
      | topLevelMerge => exact preserves_insertWithFn net hc
      | deepMerge => exact preserves_insertWithFn net hc
  | range start stop v =>
    have hall : ∀ nets, Preserves (fun w : Writer => w.pool.Forall Q) (insertAll v nets) := by
      intro nets
      induction nets with
      | nil => exact Exec.preserves_pure ()
      | cons net nets ih => exact (preserves_insertValue net hc).bind fun _ => ih
    exact (Exec.preserves_lift _).bind fun nets => hall nets

theorem forall_build {b : WriterBuilder} {w : Writer} (hb : b.build = .ok w) : w.pool.Forall Q := by
  obtain ⟨-, hpool, -⟩ := build_length hb
  rw [ValuePool.Forall, List.length_eq_zero_iff.mp hpool]
  exact fun v hv => by cases hv

theorem forall_run : ∀ {calls : List Call}, (∀ c ∈ calls, c.Keeps Q) → ∀ {w : Writer},
    w.pool.Forall Q → (run calls w).2.pool.Forall Q
  | [], _, _, h => h
  | _ :: _, hcalls, w, h => forall_run (fun c hc => hcalls c (List.mem_cons_of_mem _ hc))
      (preserves_exec (hcalls _ List.mem_cons_self) w h)

theorem forall_of_get {w : Writer} (h : w.pool.Forall Q) {ip : IpAddr} {v : Value}
    (hget : w.get ip = .ok (some v)) : Q v := by
  unfold get at hget
  rcases hpre : toTreePrefix (.ofAddr ip) w.ipVersion with _ | ⟨bits, _⟩ <;> rw [hpre] at hget
  · cases hget
  · dsimp only at hget
    rcases hid : w.tree.get bits w.ipVersion.treeDepth with _ | _ | id <;>
      rw [hid] at hget <;> simp only [bind, Except.bind, reduceCtorEq, Except.ok.injEq] at hget
    unfold ValuePool.get at hget
    rcases hv : w.pool.values[id]? with _ | u <;>
      rw [hv] at hget <;> simp only [reduceCtorEq, Except.ok.injEq, Option.some.injEq] at hget
    subst hget
    exact h _ (List.mem_of_getElem? hv)

/-- A property that the calls keep is one of every value that `get` returns. -/
theorem get_of_keeps {b : WriterBuilder} {w : Writer} (hb : b.build = .ok w) {calls : List Call}
    (hcalls : ∀ c ∈ calls, c.Keeps Q) {ip : IpAddr} {v : Value}
    (hget : (run calls w).2.get ip = .ok (some v)) : Q v :=
  forall_of_get (forall_run hcalls (forall_build hb)) hget

omit [Ipnet] in
/-- A value is one of those inserted where the operations put the old ones back or take them away. -/
theorem get_of_keeps_inserted :
    let _ := Ipnet.std
    let net : IpNet := .v4 ⟨0x01000000, 8, by decide⟩
    ∃ w : Writer, ({ databaseType := "City", ipVersion := .v4 } : WriterBuilder).build = .ok w ∧
      ∀ ip v, (run [.insert (.value net (.string "a")), .insert (.merged net (.string "b") .deepMerge),
        .insert (.withOp net fun old => old.filter (· ≠ .string "c"))] w).2.get ip = .ok (some v) →
        v = .string "a" ∨ v = .string "b" := by
  intro _ net
  refine ⟨_, rfl, fun ip v hget => get_of_keeps (b := { databaseType := "City", ipVersion := .v4 })
    (Q := fun v => v = .string "a" ∨ v = .string "b") rfl (fun c hc => ?_) hget⟩
  simp only [List.mem_cons, List.not_mem_nil, or_false] at hc
  rcases hc with rfl | rfl | rfl
  · intro _ v _ hv
    exact Or.inl (Option.some.inj hv).symm
  · intro old v _ hv
    have hb : v = .string "b" := by
      cases old <;> exact (Option.some.inj hv).symm
    exact Or.inr hb
  · intro old v hold hv
    exact hold v (Option.filter_eq_some_iff.mp hv).1

end Writer

end MmdbWriter
