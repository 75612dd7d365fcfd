import MmdbWriter.Calls

/-!
# The size of the tree

A node is only made while its index fits a `u32`, so the vector of nodes never holds more than
`2 ^ 32`, whichever calls fail.
-/

namespace MmdbWriter

namespace Tree

open Exec

/-- The nodes have `u32` indices. -/
def Indexed (t : Tree) : Prop := t.nodes.length ≤ 2 ^ 32

theorem readNode_indexed (i : ℕ) : Preserves Indexed (readNode i) := fun _ h => h

theorem writeNode_indexed (i : ℕ) (n : Node) : Preserves Indexed (writeNode i n) := by
  intro t ht
  unfold writeNode
  by_cases hi : i < t.nodes.length
  · rw [if_pos hi]
    show (t.nodes.set i n).length ≤ 2 ^ 32
    rw [List.length_set]
    exact ht
  · rw [if_neg hi]
    exact ht

theorem writeChild_indexed (i : ℕ) (b : Bool) (r : Record) :
    Preserves Indexed (writeChild i b r) :=
  (readNode_indexed i).bind fun _ => writeNode_indexed i _

theorem tryMergeNode_indexed (i : ℕ) : Preserves Indexed (tryMergeNode i) :=
  (readNode_indexed i).bind fun _ => preserves_pure _

theorem allocNode_indexed (n : Node) : Preserves Indexed (allocNode n) := by
  intro t ht
  unfold allocNode
  by_cases hi : t.nodes.length ≤ u32Max
  · rw [if_pos hi]
    show (t.nodes ++ [n]).length ≤ 2 ^ 32
    unfold u32Max at hi
    simp only [List.length_append, List.length_singleton]
    omega
  · rw [if_neg hi]
    exact ht

section Insert

variable {σ : Type}

theorem mergeInto_indexed (c i : ℕ) (b : Bool) : Preserves (fun s : Tree × σ => s.1.Indexed) (do
    let merged ← (tryMergeNode c).onFst
    match merged with
    | some record => (writeChild i b record).onFst
    | none => pure ()) := by
  refine (tryMergeNode_indexed c).onFst.bind fun merged => ?_
  cases merged with
  | none => exact preserves_pure _
  | some record => exact (writeChild_indexed i b record).onFst

theorem insertAtRecord_indexed {descend : ℕ → Exec Fault (Tree × σ) Unit}
    (hd : ∀ i, Preserves (fun s => s.1.Indexed) (descend i))
    (op : Option ValueId → Exec Fault σ (Option ValueId)) (i : ℕ) (b : Bool) (d p : ℕ) :
    Preserves (fun s => s.1.Indexed) (insertAtRecord descend op i b d p) := by
  unfold insertAtRecord
  refine (readNode_indexed i).onFst.bind fun nd => ?_
  have hsplit : ∀ n, Preserves (fun s : Tree × σ => s.1.Indexed) (do
      let newIdx ← (allocNode n).onFst
      (writeChild i b (.node newIdx)).onFst
      descend newIdx
      let merged ← (tryMergeNode newIdx).onFst
      match merged with
      | some record => (writeChild i b record).onFst
      | none => pure ()) := fun n =>
    (allocNode_indexed n).onFst.bind fun _ => (writeChild_indexed i b _).onFst.bind fun _ =>
      (hd _).bind fun _ => mergeInto_indexed _ i b
  cases nd.child b with
  | node c => exact (hd c).bind fun _ => mergeInto_indexed c i b
  | fixedNode c => exact hd c
  | aliased c => exact preserves_pure _
  | reserved => exact preserves_pure _
  | noData =>
    dsimp only
    split_ifs
    · refine (preserves_onSnd _).bind fun id => ?_
      cases id with
      | none => exact preserves_pure _
      | some id => exact (writeChild_indexed i b _).onFst
    · exact hsplit _
  | data oldId =>
    dsimp only
    split_ifs
    · refine (preserves_onSnd _).bind fun id => ?_
      cases id with
      | none => exact (writeChild_indexed i b _).onFst
      | some id => exact (writeChild_indexed i b _).onFst
    · exact hsplit _

theorem insertAtNode_indexed (op : Option ValueId → Exec Fault σ (Option ValueId))
    (bits : BitVec 128) (p : ℕ) : ∀ room i d,
    Preserves (fun s : Tree × σ => s.1.Indexed) (insertAtNode op bits p room i d) := by
  intro room
  induction room with
  | zero => exact fun _ _ => preserves_stop _
  | succ room ih =>
    intro i d
    unfold insertAtNode
    dsimp only
    split_ifs
    · exact (insertAtRecord_indexed (fun c => ih c _) op i false _ p).bind fun _ =>
        insertAtRecord_indexed (fun c => ih c _) op i true _ p
    · exact (preserves_lift _).bind fun b =>
        insertAtRecord_indexed (fun c => ih c _) op i b _ p

end Insert

theorem installMarkerFrom_indexed (bits : BitVec 128) (marker : Record) : ∀ left k i,
    Preserves Indexed (installMarkerFrom bits marker left k i) := by
  intro left
  induction left with
  | zero => exact fun _ _ => preserves_pure _
  | succ left ih =>
    intro k i
    unfold installMarkerFrom
    refine (preserves_lift _).bind fun b => (readNode_indexed i).bind fun nd => ?_
    split_ifs
    · cases nd.child b <;> first | exact preserves_pure _ | exact writeChild_indexed i b _
    · cases nd.child b with
      | node c => exact ih _ c
      | fixedNode c => exact ih _ c
      | noData =>
        exact (allocNode_indexed _).bind fun _ => (writeChild_indexed i b _).bind fun _ => ih _ _
      | data id => exact preserves_pure _
      | aliased c => exact preserves_pure _
      | reserved => exact preserves_pure _

theorem installIpv4Aliases_indexed : Preserves Indexed installIpv4Aliases := by
  refine preserves_read.bind fun t => (preserves_lift _).bind fun root => ?_
  cases root with
  | none => exact preserves_pure _
  | some c =>
    refine (preserves_lift _).bind fun parent => ?_
    cases parent with
    | none => exact preserves_pure _
    | some i =>
      exact (writeChild_indexed i false _).bind fun _ =>
        (installMarkerFrom_indexed _ _ _ _ _).bind fun _ =>
          (installMarkerFrom_indexed _ _ _ _ _).bind fun _ => installMarkerFrom_indexed _ _ _ _ _

end Tree

namespace Writer

open Exec

variable [Ipnet]

theorem insertValue_indexed (net : IpNet) (v : Value) :
    Preserves (fun w : Writer => w.tree.Indexed) (insertValue net v) := by
  refine preserves_read.bind fun w => (preserves_lift _).bind fun _ =>
    (preserves_lift _).bind fun pre => ?_
  refine Preserves.bind (fun w hw => hw) fun id => ?_
  exact fun w hw => Tree.insertAtNode_indexed _ pre.1 pre.2 255 0 0 (w.tree, ()) hw

theorem insertWithFn_indexed (net : IpNet) (f : Option Value → Option Value) :
    Preserves (fun w : Writer => w.tree.Indexed) (insertWithFn net f) := by
  have h : Preserves (fun s : Writer × Unit => s.1.tree.Indexed)
      (insertWith net fun old t => (f old, t)) := by
    refine preserves_read.bind fun s => (preserves_lift _).bind fun _ =>
      (preserves_lift _).bind fun pre => ?_
    exact fun s hs => Tree.insertAtNode_indexed _ pre.1 pre.2 255 0 0 (s.1.tree, s.1.pool, s.2) hs
  exact fun w hw => h (w, ()) hw

theorem insertAll_indexed (v : Value) : ∀ nets : List IpNet,
    Preserves (fun w : Writer => w.tree.Indexed) (insertAll v nets)
  | [] => preserves_pure _
  | net :: nets => (insertValue_indexed net v).bind fun _ => insertAll_indexed v nets

theorem exec_indexed (c : Call) : Preserves (fun w : Writer => w.tree.Indexed) (exec c) := by
  cases c with
  | insert i =>
    cases i with
    | value net v => exact insertValue_indexed net v
    | withOp net f => exact insertWithFn_indexed net f
    | merged net v strategy =>
      cases strategy with
      | replace => exact insertValue_indexed net v
      | topLevelMerge => exact insertWithFn_indexed net _
      | deepMerge => exact insertWithFn_indexed net _
  | range start stop v => exact (preserves_lift _).bind fun nets => insertAll_indexed v nets

theorem run_indexed : ∀ (calls : List Call) (w : Writer), w.tree.Indexed →
    (run calls w).2.tree.Indexed
  | [], _, h => h
  | c :: calls, w, h => run_indexed calls _ (exec_indexed c w h)

end Writer

namespace WriterBuilder

variable [Ipnet]

theorem paintAll_indexed (ipVersion : IpVersion) : ∀ nets : List IpNet,
    Exec.Preserves Tree.Indexed (paintAll ipVersion nets)
  | [] => Exec.preserves_pure _
  | net :: nets => by
    unfold paintAll
    have ih := paintAll_indexed ipVersion nets
    cases toTreePrefix net ipVersion with
    | error e => exact (Exec.preserves_stop _).bind fun _ => ih
    | ok pre => exact (Tree.installMarkerFrom_indexed _ _ _ _ _).bind fun _ => ih

theorem build_indexed {b : WriterBuilder} {w : Writer} (h : b.build = .ok w) : w.tree.Indexed := by
  have hnew : Tree.new.Indexed := by simp [Tree.Indexed, Tree.new]
  unfold build at h
  split_ifs at h
  · have hp := paintAll_indexed b.ipVersion (Reserved.networks b.ipVersion) Tree.new hnew
    rcases hrun : paintAll b.ipVersion (Reserved.networks b.ipVersion) Tree.new with ⟨_ | _, t⟩ <;>
      rw [hrun] at h hp <;> simp only [Except.ok.injEq, reduceCtorEq] at h
    rw [← h]
    exact hp
  · simp only [Except.ok.injEq] at h
    rw [← h]
    exact hnew

end WriterBuilder

theorem Writer.Reachable.indexed [Ipnet] {w : Writer} (h : w.Reachable) : w.tree.Indexed := by
  obtain ⟨b, w₀, calls, hb, -, rfl⟩ := h
  exact run_indexed calls w₀ (WriterBuilder.build_indexed hb)

end MmdbWriter
