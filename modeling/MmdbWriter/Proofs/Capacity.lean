import MmdbWriter.Proofs.Runs

/-!
# How much an insert allocates

An insert makes at most one node for each bit of its network and interns its value. So a run of
inserts of values that is short against the index limits finds neither the nodes nor the pool full, and
each of them is decided by the checks alone.
-/

namespace MmdbWriter

open BitTrie (leaf node)
open Exec (GrowsBy)

namespace Tree

variable {σ : Type}

/-- The number of nodes. -/
def size (s : Tree × σ) : ℕ := s.1.nodes.length

theorem growsBy_readNode (i : ℕ) : GrowsBy (size (σ := σ)) 0 (readNode i).onFst := fun _ => le_rfl

theorem growsBy_writeChild (i : ℕ) (b : Bool) (rec : Record) :
    GrowsBy (size (σ := σ)) 0 (writeChild i b rec).onFst := by
  rintro ⟨t, s⟩
  unfold writeChild
  rw [Exec.onFst_apply]
  rcases hn : t.nodes[i]? with _ | n
  · rw [Exec.bind_error (readNode_eq_panic hn)]
    exact le_rfl
  · rw [Exec.bind_ok (readNode_eq hn), writeNode_eq hn]
    exact (List.length_set ..).le

theorem growsBy_tryMergeNode (i : ℕ) : GrowsBy (size (σ := σ)) 0 (tryMergeNode i).onFst := by
  rintro ⟨t, s⟩
  unfold tryMergeNode
  rw [Exec.onFst_apply]
  rcases hn : t.nodes[i]? with _ | n
  · rw [Exec.bind_error (readNode_eq_panic hn)]
    exact le_rfl
  · rw [Exec.bind_ok (readNode_eq hn), Exec.pure_apply]
    exact le_rfl

theorem growsBy_allocNode (n : Node) : GrowsBy (size (σ := σ)) 1 (allocNode n).onFst := by
  rintro ⟨t, s⟩
  rw [Exec.onFst_apply]
  unfold allocNode
  split_ifs
  · exact (List.length_append ..).le
  · exact Nat.le_succ _

variable {op : Option ValueId → Exec Fault σ (Option ValueId)}
  {descend : ℕ → Exec Fault (Tree × σ) Unit} {k : ℕ}

/-- Above the prefix one node more is made than below the record, past it none. -/
theorem growsBy_insertAtRecord (hdesc : ∀ c, GrowsBy size k (descend c)) (i : ℕ) (b : Bool)
    (newDepth prefixLen : ℕ) : GrowsBy size (if newDepth > prefixLen then k else 1 + k)
      (insertAtRecord descend op i b newDepth prefixLen) := by
  have hop : ∀ o, GrowsBy (size (σ := σ)) 0 (op o).onSnd := fun o _ => le_rfl
  have hk : k ≤ if newDepth > prefixLen then k else 1 + k := by split_ifs <;> omega
  have htail : ∀ c (m : Option Record → Exec Fault (Tree × σ) Unit),
      (∀ record, GrowsBy size 0 (m (some record))) → GrowsBy size 0 (m none) →
      GrowsBy (size (σ := σ)) 0 ((tryMergeNode c).onFst >>= m) := fun c m hsome hnone => by
    refine (growsBy_tryMergeNode c).seq fun merged => ?_
    cases merged with
    | some record => exact hsome record
    | none => exact hnone
  unfold insertAtRecord
  refine (growsBy_readNode i).seq fun node => ?_
  cases node.child b with
  | node c =>
    exact ((hdesc c).bind fun _ => htail c _ (growsBy_writeChild i b) (Exec.growsBy_pure ())).mono hk
  | fixedNode c => exact (hdesc c).mono hk
  | aliased _ | reserved => exact (Exec.growsBy_pure ()).mono (Nat.zero_le _)
  | noData =>
    dsimp only
    split_ifs
    · refine (hop none).seq fun id => ?_
      cases id with
      | some id => exact (growsBy_writeChild i b _).mono (Nat.zero_le k)
      | none => exact (Exec.growsBy_pure ()).mono (Nat.zero_le k)
    · exact (growsBy_allocNode _).bind fun newIdx => (growsBy_writeChild i b _).seq fun _ =>
        (hdesc newIdx).bind fun _ => htail newIdx _ (growsBy_writeChild i b) (Exec.growsBy_pure ())
  | data oldId =>
    dsimp only
    split_ifs
    · refine (hop _).seq fun id => ?_
      cases id with
      | some id => exact (growsBy_writeChild i b _).mono (Nat.zero_le k)
      | none => exact (growsBy_writeChild i b _).mono (Nat.zero_le k)
    · exact (growsBy_allocNode _).bind fun newIdx => (growsBy_writeChild i b _).seq fun _ =>
        (hdesc newIdx).bind fun _ => htail newIdx _ (growsBy_writeChild i b) (Exec.growsBy_pure ())

/-- An insert at a node makes at most one node for each bit it still walks. -/
theorem growsBy_insertAtNode (bits : BitVec 128) (prefixLen : ℕ) : ∀ room i depth,
    GrowsBy size (prefixLen - depth) (insertAtNode op bits prefixLen room i depth) := by
  intro room
  induction room with
  | zero => exact fun i depth => (Exec.growsBy_stop _).mono (Nat.zero_le _)
  | succ room ih =>
    intro i depth
    have hrec : ∀ b, GrowsBy size (prefixLen - depth) (insertAtRecord (fun c =>
        insertAtNode op bits prefixLen room c (depth + 1)) op i b (depth + 1) prefixLen) := fun b =>
      (growsBy_insertAtRecord (fun c => ih c (depth + 1)) i b (depth + 1) prefixLen).mono (by
        split_ifs <;> omega)
    unfold insertAtNode
    dsimp only
    split_ifs with hdepth
    · have hzero : prefixLen - depth = 0 := by omega
      rw [hzero] at hrec ⊢
      exact (hrec false).seq fun _ => hrec true
    · exact (Exec.growsBy_lift _).seq fun b => hrec b

/-- A marker is installed with at most one node for each bit of its path. -/
theorem growsBy_installMarkerFrom (bits : BitVec 128) (marker : Record) : ∀ left bitIndex i,
    GrowsBy (fun t : Tree => t.nodes.length) left (installMarkerFrom bits marker left bitIndex i) := by
  have hread : ∀ i, GrowsBy (fun t : Tree => t.nodes.length) 0 (readNode i) := fun _ _ => le_rfl
  have hwrite : ∀ i b rec, GrowsBy (fun t : Tree => t.nodes.length) 0 (writeChild i b rec) :=
    fun i b rec t => growsBy_writeChild i b rec (t, ())
  have halloc : ∀ n, GrowsBy (fun t : Tree => t.nodes.length) 1 (allocNode n) :=
    fun n t => growsBy_allocNode n (t, ())
  intro left
  induction left with
  | zero => exact fun _ _ => Exec.growsBy_pure ()
  | succ left ih =>
    intro bitIndex i
    unfold installMarkerFrom
    refine (Exec.growsBy_lift _).seq fun bit => (hread i).seq fun node => ?_
    split_ifs
    · cases node.child bit with
      | noData => exact (hwrite i bit marker).mono (Nat.zero_le _)
      | _ => exact (Exec.growsBy_pure ()).mono (Nat.zero_le _)
    · cases node.child bit with
      | node c | fixedNode c => exact (ih (bitIndex + 1) c).mono (Nat.le_succ left)
      | noData =>
        exact ((halloc _).bind fun c => (hwrite i bit _).seq fun _ => ih (bitIndex + 1) c).mono
          (Nat.add_comm 1 left).le
      | data _ | aliased _ | reserved => exact (Exec.growsBy_pure ()).mono (Nat.zero_le _)

end Tree

namespace Writer

variable [Ipnet] {w : Writer} {l r : BitTrie (Leaf Value)}

theorem growsBy_paintAll (ipVersion : IpVersion) : ∀ nets : List IpNet,
    GrowsBy (fun t : Tree => t.nodes.length) (nets.length * 128)
      (WriterBuilder.paintAll ipVersion nets)
  | [] => (Exec.growsBy_pure ()).mono (Nat.zero_le _)
  | net :: nets => by
    have hlength : 128 + nets.length * 128 = (net :: nets).length * 128 := by
      rw [List.length_cons]
      omega
    rw [← hlength]
    unfold WriterBuilder.paintAll
    rcases toTreePrefix_cases net ipVersion with ⟨bits, len, hpre, hlen, -⟩ | ⟨n, -, -, -, herr⟩
    · rw [hpre]
      exact ((Tree.growsBy_installMarkerFrom bits .reserved len 0 0).mono
        (hlen.trans (by cases ipVersion <;> decide))).bind fun _ => growsBy_paintAll ipVersion nets
    · rw [herr]
      exact ((Exec.growsBy_stop _).mono (Nat.zero_le 128)).bind fun _ => growsBy_paintAll ipVersion nets

theorem build_length {b : WriterBuilder} (hb : b.build = .ok w) :
    w.tree.nodes.length ≤ 2 ^ 12 ∧ w.pool.values.length = 0 ∧ w.ipVersion = b.ipVersion := by
  unfold WriterBuilder.build at hb
  dsimp only at hb
  split_ifs at hb
  · have hgrow := growsBy_paintAll b.ipVersion (Reserved.networks b.ipVersion) Tree.new
    rcases hpaint : WriterBuilder.paintAll b.ipVersion (Reserved.networks b.ipVersion) Tree.new with
      ⟨_ | _, t⟩ <;> rw [hpaint] at hb hgrow
    · cases hb
    · rw [Except.ok.injEq] at hb
      subst hb
      have hnets : (Reserved.networks b.ipVersion).length ≤ 29 := by
        cases b.ipVersion <;> decide
      have hnew : Tree.new.nodes.length = 1 := rfl
      refine ⟨?_, rfl, rfl⟩
      dsimp only at hgrow ⊢
      omega
  · rw [Except.ok.injEq] at hb
    subst hb
    exact ⟨Nat.one_le_two_pow, rfl, rfl⟩

omit [Ipnet] in
theorem intern_length (value : Value) (pool : ValuePool) :
    (ValuePool.intern value pool).2.values.length ≤ pool.values.length + 1 := by
  unfold ValuePool.intern
  split
  · exact Nat.le_succ _
  · split_ifs
    · exact (List.length_append ..).le
    · exact Nat.le_succ _

/-- What one `insert_value` adds to the nodes and to the pool. -/
theorem insertValue_length (net : IpNet) (v : Value) (w : Writer) :
    (insertValue net v w).2.tree.nodes.length ≤ w.tree.nodes.length + w.ipVersion.treeDepth ∧
      (insertValue net v w).2.pool.values.length ≤ w.pool.values.length + 1 := by
  rcases w.checks_cases net with ⟨-, e, herr⟩ | ⟨-, bits, len, hens, hpre, hlen, -⟩
  · have hrun : insertValue net v w = (.error (.err e), w) := herr _ w
    rw [hrun]
    exact ⟨Nat.le_add_right _ _, Nat.le_add_right _ _⟩
  · rw [insertValue_of_checks hens hpre]
    have htree : ∀ id : ValueId, GrowsBy (fun w : Writer => w.tree.nodes.length) len
        (onTree (Tree.insert bits len fun _ => pure (some id))) := fun id w =>
      Tree.growsBy_insertAtNode bits len 255 0 0 (w.tree, ())
    have hintern : GrowsBy (fun w : Writer => w.pool.values.length) 1
        (onPool (ValuePool.intern v)) := fun w => intern_length v w.pool
    have hnodes : GrowsBy (fun w : Writer => w.tree.nodes.length) 0
        (onPool (ValuePool.intern v)) := fun _ => le_rfl
    have hvalues : ∀ id : ValueId, GrowsBy (fun w : Writer => w.pool.values.length) 0
        (onTree (Tree.insert bits len fun _ => pure (some id))) := fun _ _ => le_rfl
    exact ⟨((hnodes.seq htree) w).trans (Nat.add_le_add_left hlen _), (hintern.bind hvalues) w⟩

/-- The checks that an insert makes before it changes anything. -/
def checks (w : Writer) (net : IpNet) : Except Fault Unit := do
  w.ensureInsertable net
  let _ ← toTreePrefix net w.ipVersion
  .ok ()

theorem checks_congr {w' : Writer} (hopt : w'.toWriterBuilder = w.toWriterBuilder) (net : IpNet) :
    w'.checks net = w.checks net := by
  unfold checks ensureInsertable
  rw [hopt]

/-- With room for one more insert the checks decide it. -/
theorem Inv.insertValue_checks (h : w.Inv l r) (net : IpNet) (v : Value)
    (hnodes : w.tree.nodes.length + w.ipVersion.treeDepth < 2 ^ 32)
    (hpool : w.pool.values.length + 1 < 2 ^ 32) : (insertValue net v w).1 = w.checks net := by
  obtain ⟨hn, hp⟩ := insertValue_length net v w
  have hstep : InsertStep w l r (.value net v) (insertValue net v w) := h.insert_step (.value net v)
  rcases w.checks_cases net with ⟨hno, e, herr⟩ | ⟨hacc, bits, len, hens, hpre, -⟩
  · have hrun : insertValue net v w = (.error (.err e), w) := herr _ w
    have hcheck : (Exec.lift (w.ensureInsertable net) >>= fun _ =>
        Exec.lift (toTreePrefix net w.ipVersion) >>= fun _ => pure ()) w = (w.checks net, w) := by
      unfold checks
      rcases w.ensureInsertable net with _ | _
      · rfl
      · rcases toTreePrefix net w.ipVersion with _ | _ <;> rfl
    rw [herr, Prod.mk.injEq] at hcheck
    rw [hrun, ← hcheck.1]
  · have hok : w.checks net = .ok () := by
      unfold checks
      rw [hens, hpre]
      rfl
    rw [hok]
    generalize insertValue net v w = res at hstep hn hp
    cases hstep with
    | rejected hno => exact absurd hacc hno
    | done => rfl
    | full l' r' _ _ _ _ hlen =>
      dsimp only at hn
      omega
    | panic hlen =>
      dsimp only at hp
      omega

/-- A run of inserts of values, each with its network. -/
def valueCalls (entries : List (IpNet × Value)) : List Call :=
  entries.map fun e => .insert (.value e.1 e.2)

theorem Inv.run_room : ∀ (entries : List (IpNet × Value)) {w : Writer}
    {l r : BitTrie (Leaf Value)}, w.Inv l r →
    w.tree.nodes.length + entries.length * w.ipVersion.treeDepth < 2 ^ 32 →
    w.pool.values.length + entries.length < 2 ^ 32 →
    (run (valueCalls entries) w).1 = entries.map (fun e => w.checks e.1) ∧
      RunInLimits (valueCalls entries) w ∧ (run (valueCalls entries) w).2.tree.nodes.length ≤
        w.tree.nodes.length + entries.length * w.ipVersion.treeDepth
  | [], w, l, r, _, hnodes, hpool =>
    ⟨rfl, ⟨by simpa using hnodes, by simpa using hpool⟩, Nat.le_add_right _ _⟩
  | e :: entries, w, l, r, h, hnodes, hpool => by
    rw [List.length_cons, Nat.add_mul, Nat.one_mul] at hnodes
    rw [List.length_cons] at hpool
    have hres := h.insertValue_checks e.1 e.2 (by omega) (by omega)
    obtain ⟨hn, hp⟩ := insertValue_length e.1 e.2 w
    have hno : ((Insert.value e.1 e.2).exec w).1 ≠ .error .panic := by
      show (insertValue e.1 e.2 w).1 ≠ _
      rw [hres]
      unfold checks
      rcases w.ensureInsertable_cases e.1 with hens | ⟨e', hens⟩
      · rw [hens]
        rcases toTreePrefix_cases e.1 w.ipVersion with ⟨_, _, hpre, -⟩ | ⟨_, -, -, -, hpre⟩ <;>
          rw [hpre] <;> simp [bind, Except.bind]
      · rw [hens]
        simp [bind, Except.bind]
    obtain ⟨hopt, l', r', h'⟩ := h.insert_keeps (.value e.1 e.2) hno
    have hver : (insertValue e.1 e.2 w).2.ipVersion = w.ipVersion := congrArg (·.ipVersion) hopt
    obtain ⟨ih, hlim, hlen⟩ := Inv.run_room entries (w := (insertValue e.1 e.2 w).2) h' (by
      rw [hver]
      omega) (by omega)
    refine ⟨?_, ⟨⟨by omega, by omega⟩, hlim⟩, ?_⟩
    · show (insertValue e.1 e.2 w).1 :: (run (valueCalls entries) (insertValue e.1 e.2 w).2).1 = _
      rw [hres, ih, List.map_cons]
      exact congrArg _ (List.map_congr_left fun e' _ => checks_congr hopt e'.1)
    · rw [hver] at hlen
      rw [List.length_cons, Nat.add_mul, Nat.one_mul]
      show (run (valueCalls entries) (insertValue e.1 e.2 w).2).2.tree.nodes.length ≤ _
      omega

/-- A run of inserts of values that is short against the limits is decided by the checks alone. No
call of it finds the nodes or the pool full. -/
theorem run_checks {b : WriterBuilder} (hb : b.build = .ok w) (entries : List (IpNet × Value))
    (hroom : entries.length * b.ipVersion.treeDepth + 2 ^ 12 < 2 ^ 32) :
    (run (valueCalls entries) w).1 = entries.map (fun e => w.checks e.1) ∧
      RunInLimits (valueCalls entries) w := by
  obtain ⟨w', l, r, hb', -, hinv, -⟩ := build_inv b
  rw [hb, Except.ok.injEq] at hb'
  subst hb'
  obtain ⟨hnodes, hpool, hver⟩ := build_length hb
  have hle : entries.length ≤ entries.length * b.ipVersion.treeDepth :=
    Nat.le_mul_of_pos_right _ (treeDepth_pos _)
  rw [← hver] at hroom hle
  obtain ⟨hresults, hlim, -⟩ := Inv.run_room entries hinv (by omega) (by omega)
  exact ⟨hresults, hlim⟩

omit [Ipnet] in
/-- A network of an alias is refused, the ones before and after it are not. -/
theorem run_checks_alias :
    let _ := Ipnet.std
    let net : IpNet := .v4 ⟨0x01000000, 8, by decide⟩
    let mapped : IpNet := .v6 ⟨0x00000000000000000000FFFF01000000#128, 104, by decide⟩
    ∃ w : Writer, ({ databaseType := "City" } : WriterBuilder).build = .ok w ∧
      (run (valueCalls [(net, .string "a"), (mapped, .string "b"), (net, .string "c")]) w).1 =
        [.ok (), .error (.err (.aliasedNetwork mapped)), .ok ()] := by
  intro _ net mapped
  refine ⟨_, rfl, (run_checks (b := { databaseType := "City" }) rfl _ (by decide)).1.trans ?_⟩
  decide +kernel

end Writer

end MmdbWriter
