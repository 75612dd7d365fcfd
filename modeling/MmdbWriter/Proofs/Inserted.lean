import MmdbWriter.Proofs.Linked

/-!
# Trees of inserts

A tree that inserts have led to is sound: its nodes are linked as a tree and no node below the root
could be merged. On such a tree no call reads past the vector, past a `u8` of depth or by a negative
shift.
-/

namespace MmdbWriter

open BitTrie (leaf node)

namespace Tree

variable {t : Tree}

/-- The invariant of the inserts: the vector is linked, and it stores merged tries of IPv6 depth below
the root. -/
structure Kept (t : Tree) : Prop where
  linked : t.Linked
  stores : ∃ l r fp, NodeStores t.nodes 0 0 l r fp ∧ fp.Nodup ∧
    (KidShape .v6 l ∧ KidShape .v6 r) ∧ l.ReducedOn (fun _ => True) ∧ r.ReducedOn fun _ => True

theorem kept_new : Kept Tree.new where
  linked := linked_new
  stores := ⟨leaf .noData, leaf .noData, [0], ⟨Node.empty, [], [], rfl, ⟨rfl, rfl⟩, ⟨rfl, rfl⟩, rfl⟩,
    List.nodup_singleton 0, ⟨⟨trivial, by simp [BitTrie.Forall], by simp⟩,
    ⟨trivial, by simp [BitTrie.Forall], by simp⟩⟩, trivial, trivial⟩

section Insert

variable {σ : Type} (bits : BitVec 128) {prefixLen : ℕ} (s : σ)
  (op : Option ValueId → Exec Fault σ (Option ValueId))

theorem Kept.insert (h : t.Kept) (hlen : prefixLen ≤ 128)
    (hres : (insert bits prefixLen op (t, s)).1 = .ok ()) :
    (insert bits prefixLen op (t, s)).2.1.Kept := by
  refine ⟨insertAtNode_linked op bits prefixLen 255 0 0 (t, s) h.linked, ?_⟩
  obtain ⟨l, r, fp, hst, hnd, ⟨hl, hr⟩, hred⟩ := h.stores
  have hspec := insert_outcome_of_kidShape hst hnd hl hr bits hlen s op
  have hp : (pathFrom bits prefixLen 0).length = prefixLen :=
    length_path (show prefixLen ≤ IpVersion.v6.treeDepth from hlen)
  generalize Tree.insert bits prefixLen op (t, s) = res at hspec hres
  cases hspec with
  | @done l' r' s' t' fp' hm hst' hf =>
    exact ⟨l', r', fp', hst', hf.nodup, updateM_kidShape hl hr (by rw [hp]; exact hlen) hm,
      BitTrie.updateM_joined (BitTrie.joined_reducedOn _) hred.1 hred.2 hm⟩
  | fault _ _ => cases hres
  | full _ _ _ _ _ _ => cases hres

/-- An insert panics where its operation does. -/
theorem Kept.insert_panic (h : t.Kept) (hlen : prefixLen ≤ 128)
    (hres : (Tree.insert bits prefixLen op (t, s)).1 = .error .panic) :
    ∃ old s s', op old s = (.error .panic, s') := by
  obtain ⟨l, r, fp, hst, hnd, ⟨hl, hr⟩, -⟩ := h.stores
  have hspec := insert_outcome_of_kidShape hst hnd hl hr bits hlen s op
  generalize Tree.insert bits prefixLen op (t, s) = res at hspec hres
  cases hspec with
  | done _ _ _ => cases hres
  | @fault e s' t' hm _ =>
    let P : Fault → Prop := fun e => e = .panic → ∃ old s s', op old s = (.error .panic, s')
    have hop : ∀ {old s e s'}, op old s = (.error e, s') → P e := by
      rintro old s e s' h rfl
      exact ⟨old, s, s', h⟩
    exact BitTrie.updateM_error (P := P) (leafM_error hop) hm (Except.error.inj hres)
  | full _ _ _ _ _ _ => cases hres

end Insert

theorem Inserted.kept (h : t.Inserted) : t.Kept := by
  induction h with
  | new => exact kept_new
  | insert _ bits hlen s op hres ih => exact ih.insert bits s op hlen hres

theorem Kept.sound (h : t.Kept) : t.Sound := by
  obtain ⟨l, r, fp, hst, -, -, hred⟩ := h.stores
  have hplain : ∀ rec ∈ t.records, IsPlain rec := by
    intro rec hrec
    obtain ⟨i, n, hn, rfl | rfl⟩ := mem_records.mp hrec
    · exact h.linked.plain i n false hn
    · exact h.linked.plain i n true hn
  refine ⟨fun rec hrec => ?_, fun i b j hp => (h.linked.forward i b j hp).2,
    fun i b j hp => (h.linked.forward i b j hp).1, fun j hj hj0 => ?_, fun i n hi hi0 hn => ?_⟩
  · rcases hplain rec hrec with (h | h) | h
    · exact Or.inl h
    · exact Or.inr (Or.inl h)
    · exact Or.inr (Or.inr h)
  · cases hj with
    | refl => exact absurd rfl hj0
    | @child i _ n hi hn hmem =>
      obtain ⟨b, hb⟩ : ∃ b, t.Points i b j := by
        have htarget : ∀ rec : Record, j ∈ pushed rec → rec.target = some j := by
          intro rec hrec
          cases rec <;> simp_all [pushed, Record.target]
        rcases List.mem_append.mp hmem with hmem | hmem
        · exact ⟨false, n, hn, htarget _ hmem⟩
        · exact ⟨true, n, hn, htarget _ hmem⟩
      refine ⟨(i, b), ⟨hi, hb⟩, ?_⟩
      rintro ⟨i', b'⟩ ⟨-, hb'⟩
      obtain ⟨rfl, rfl⟩ := h.linked.single i' b' i b j hb' hb
      rfl
  · refine unequal_of_stores hred hst ((below_iff hst).mp hi) hn hi0 fun hfixed => ?_
    rcases hplain _ hfixed with (h | ⟨_, h⟩) | ⟨_, h⟩ <;> cases h

section Safety

/-- Every record leads into the vector. -/
def InRange (t : Tree) : Prop := ∀ i b j, t.Points i b j → j < t.nodes.length

/-- A call that has not panicked, on a tree that has kept its records in range. -/
structure Safe {α : Type} (t : Tree) (res : Except Fault α × Tree) : Prop where
  no_panic : res.1 ≠ .error .panic
  in_range : res.2.InRange
  length_le : t.nodes.length ≤ res.2.nodes.length

theorem Safe.ok {α : Type} (h : t.InRange) (a : α) : Safe t (.ok a, t) :=
  ⟨by simp, h, le_rfl⟩

theorem Safe.trans {α : Type} {t' : Tree} {res : Except Fault α × Tree}
    (hlen : t.nodes.length ≤ t'.nodes.length) (h : Safe t' res) : Safe t res :=
  ⟨h.no_panic, h.in_range, hlen.trans h.length_le⟩

theorem writeChild_safe (h : t.InRange) {i : ℕ} (hi : i < t.nodes.length) (b : Bool) {rec : Record}
    (hrec : ∀ j, rec.target = some j → j < t.nodes.length) :
    ∃ t', writeChild i b rec t = (.ok (), t') ∧ t'.InRange ∧ t'.nodes.length = t.nodes.length := by
  have hn := List.getElem?_eq_getElem hi
  refine ⟨_, writeChild_eq hn b rec, fun k c j hp => ?_, List.length_set⟩
  rw [points_set hn] at hp
  rw [List.length_set]
  split_ifs at hp
  · exact hrec j hp
  · exact h k c j hp

theorem inRange_append (h : t.InRange) : (Tree.mk (t.nodes ++ [Node.empty])).InRange := by
  intro k c j hp
  rw [List.length_append]
  rcases points_append.mp hp with hp | ⟨-, hp⟩
  · have := h k c j hp
    omega
  · cases c <;> cases hp

/-- A marker is installed without a panic. -/
theorem installMarkerFrom_safe (bits : BitVec 128) (marker : Record) :
    ∀ (left k i : ℕ) (t : Tree), t.InRange → i < t.nodes.length → k + left ≤ 128 →
      (∀ j, marker.target = some j → j < t.nodes.length) →
      Safe t (installMarkerFrom bits marker left k i t) := by
  intro left
  induction left with
  | zero => exact fun _ _ t h _ _ _ => Safe.ok h ()
  | succ left ih =>
    intro k i t h hi hk hm
    have hn := List.getElem?_eq_getElem hi
    unfold installMarkerFrom
    rw [walkBit_eq (by omega), Exec.bind_ok (Exec.lift_apply _ _), Exec.bind_ok (readNode_eq hn)]
    generalize bits.getMsbD k = b
    have hpoints : ∀ {j}, (t.nodes[i].child b).target = some j → j < t.nodes.length := fun hj =>
      h i b _ ⟨_, hn, hj⟩
    split_ifs with h0
    · cases hc : t.nodes[i].child b with
      | noData =>
        obtain ⟨t', hw, hr, hl⟩ := writeChild_safe h hi b hm
        dsimp only
        rw [hw]
        exact (Safe.ok hr ()).trans hl.ge
      | _ => exact Safe.ok h ()
    · cases hc : t.nodes[i].child b with
      | node c => exact ih _ c t h (hpoints (by rw [hc]; rfl)) (by omega) hm
      | fixedNode c => exact ih _ c t h (hpoints (by rw [hc]; rfl)) (by omega) hm
      | noData =>
        by_cases hfull : t.nodes.length < 2 ^ 32
        · have hi' : i < (Tree.mk (t.nodes ++ [Node.empty])).nodes.length := by simp; omega
          have hnew : ∀ j, (Record.node t.nodes.length).target = some j →
              j < (Tree.mk (t.nodes ++ [Node.empty])).nodes.length := by
            rintro j ⟨rfl⟩
            simp
          obtain ⟨t', hw, hr, hl⟩ := writeChild_safe (inRange_append h) hi' b hnew
          have hl' : t'.nodes.length = t.nodes.length + 1 := by simpa using hl
          dsimp only
          rw [Exec.bind_ok (allocNode_eq hfull _), Exec.bind_ok hw]
          exact (ih _ _ t' hr (by omega) (by omega) fun j hj => by have := hm j hj; omega).trans
            (by omega)
        · dsimp only
          rw [Exec.bind_error (allocNode_full (by omega) _)]
          exact ⟨by simp, h, le_rfl⟩
      | _ => exact Safe.ok h ()

theorem leftWalk_safe (h : t.InRange) : ∀ (steps cursor : ℕ), cursor < t.nodes.length →
    ∃ r, t.leftWalk steps cursor = .ok r ∧ ∀ i, r = some i → i < t.nodes.length
  | 0, cursor, hc => ⟨some cursor, rfl, by rintro i ⟨rfl⟩; exact hc⟩
  | steps + 1, cursor, hc => by
    have hn := List.getElem?_eq_getElem hc
    unfold leftWalk nodeAt
    simp only [hn, bind, Except.bind]
    cases hleft : t.nodes[cursor].left with
    | node i =>
      have hi : t.Points cursor false i :=
        ⟨_, hn, by simp [Node.child, hleft, Record.target]⟩
      exact leftWalk_safe h steps i (h cursor false i hi)
    | _ => exact ⟨none, rfl, by simp⟩

theorem installIpv4Aliases_safe (h : t.InRange) (hpos : 0 < t.nodes.length) :
    (installIpv4Aliases t).1 ≠ .error .panic := by
  obtain ⟨root, hroot, hroot'⟩ := leftWalk_safe h 96 0 hpos
  obtain ⟨parent, hparent, hparent'⟩ := leftWalk_safe h 95 0 hpos
  unfold installIpv4Aliases
  rw [Exec.bind_ok (Exec.read_apply t), Exec.bind_ok (by rw [Exec.lift_apply, hroot])]
  rcases root with _ | v4
  · simp
  · dsimp only
    rw [Exec.bind_ok (by rw [Exec.lift_apply, hparent])]
    rcases parent with _ | i
    · simp
    · have hv4 := hroot' v4 rfl
      have hpin : ∀ j, (Record.fixedNode v4).target = some j → j < t.nodes.length := by
        rintro j ⟨rfl⟩
        exact hv4
      obtain ⟨t₁, hw, hr, hl⟩ := writeChild_safe h (hparent' i rfl) false hpin
      dsimp only
      rw [Exec.bind_ok hw]
      have hmark : ∀ (bits : BitVec 128) (len : ℕ) (t' : Tree), len ≤ 128 → t'.InRange →
          t.nodes.length ≤ t'.nodes.length → Safe t' (installMarker bits len (.aliased v4) t') :=
        fun bits len t' hlen hr' hl' => installMarkerFrom_safe bits _ len 0 0 t' hr' (by omega)
          (by omega) (by rintro j ⟨rfl⟩; omega)
      have h1 := hmark 0x00000000000000000000FFFF00000000#128 96 t₁ (by decide) hr hl.ge
      rcases hres1 : installMarker 0x00000000000000000000FFFF00000000#128 96 (.aliased v4) t₁
        with ⟨e | _, t₂⟩ <;> rw [hres1] at h1
      · rw [Exec.bind_error hres1]
        exact h1.no_panic
      · rw [Exec.bind_ok hres1]
        have h2 := hmark 0x20010000000000000000000000000000#128 32 t₂ (by decide) h1.in_range
          (hl.ge.trans h1.length_le)
        rcases hres2 : installMarker 0x20010000000000000000000000000000#128 32 (.aliased v4) t₂
          with ⟨e | _, t₃⟩ <;> rw [hres2] at h2
        · rw [Exec.bind_error hres2]
          exact h2.no_panic
        · rw [Exec.bind_ok hres2]
          exact (hmark _ 16 t₃ (by decide) h2.in_range
            ((hl.ge.trans h1.length_le).trans h2.length_le)).no_panic

theorem getFrom_safe (h : t.InRange) (bits : BitVec 128) : ∀ (left depth i : ℕ),
    i < t.nodes.length → depth + left ≤ 128 → ∃ id, t.getFrom bits left depth i = .ok id
  | 0, _, _, _, _ => ⟨none, rfl⟩
  | left + 1, depth, i, hi, hdepth => by
    have hn := List.getElem?_eq_getElem hi
    rw [getFrom_succ bits left (by omega) hn]
    generalize bits.getMsbD depth = b
    have hpoints : ∀ {j}, (t.nodes[i].child b).target = some j → j < t.nodes.length := fun hj =>
      h i b _ ⟨_, hn, hj⟩
    cases hc : t.nodes[i].child b with
    | node c => exact getFrom_safe h bits left _ c (hpoints (by rw [hc]; rfl)) (by omega)
    | fixedNode c => exact getFrom_safe h bits left _ c (hpoints (by rw [hc]; rfl)) (by omega)
    | aliased c => exact getFrom_safe h bits left _ c (hpoints (by rw [hc]; rfl)) (by omega)
    | data id => exact ⟨some id, rfl⟩
    | noData => exact ⟨none, rfl⟩
    | reserved => exact ⟨none, rfl⟩

end Safety

/-- The trees of inserts are sound, and no call on one of them goes out of range: `insert` panics where
its operation does, `get` and `install_ipv4_aliases` do not. -/
theorem Inserted.sound_and_safe (h : t.Inserted) : t.Sound ∧
    (∀ (bits : BitVec 128) (prefixLen : ℕ) (σ : Type) (s : σ)
      (op : Option ValueId → Exec Fault σ (Option ValueId)), prefixLen ≤ 128 →
      (Tree.insert bits prefixLen op (t, s)).1 = .error .panic →
      ∃ old s s', op old s = (.error .panic, s')) ∧
    (∀ (bits : BitVec 128) (depthLimit : ℕ), depthLimit ≤ 128 →
      ∃ id, t.get bits depthLimit = .ok id) ∧
    (installIpv4Aliases t).1 ≠ .error .panic := by
  have hkept := h.kept
  have hsound := hkept.sound
  obtain ⟨l, r, fp, hst, -⟩ := hkept.stores
  have hpos : 0 < t.nodes.length := nodeStores_mem_lt hst 0 (nodeStores_root_mem hst)
  exact ⟨hsound, fun bits _ σ s op hlen hres => hkept.insert_panic bits s op hlen hres,
    fun bits depthLimit hlimit => getFrom_safe hsound.target_lt bits depthLimit 0 0 hpos (by omega),
    installIpv4Aliases_safe hsound.target_lt hpos⟩

theorem Inserted.sound_and_safe_host :
    (Tree.insert 0x01020304000000000000000000000000#128 128 (fun _ s => (.ok (some 0), s))
      (Tree.new, ())).2.1.Sound :=
  (Inserted.insert .new _ (by decide) () _ (by decide +kernel)).sound_and_safe.1

end Tree

end MmdbWriter
