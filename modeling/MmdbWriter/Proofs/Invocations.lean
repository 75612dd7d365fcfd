import MmdbWriter.Proofs.Stateful

/-!
# One answer for each leaf

What `insert_with` owes a caller whose operation remembers: the addresses of the network that one
leaf covered before the call have one answer of the operation afterwards, and the tree stays within
the depth of its addresses.
-/

namespace MmdbWriter

open BitTrie (leaf node updateM callAll subtries)

namespace Tree

/-- The record a path of bits ends at, from a node on. -/
def recordFrom (t : Tree) : List Bool → ℕ → Option Record
  | [], _ => none
  | b :: p, i => match t.nodes[i]? with
    | none => none
    | some n => if p = [] then some (n.child b) else match n.child b with
      | .node c | .fixedNode c => recordFrom t p c
      | .noData | .data _ | .aliased _ | .reserved => none

/-- The leaf records at the ends of paths are the leaves of the trie. -/
theorem recordFrom_leaf {t : Tree} {v4 : ℕ} : ∀ {s : List Bool} {i : ℕ}
    {l r : BitTrie (Leaf ValueId)} {fp : List ℕ}, NodeStores t.nodes v4 i l r fp → ∀ pin a,
    t.recordFrom s i = some (leafRecord v4 a) ↔ (node pin l r).leafAt s = some a
  | [], i, l, r, fp, _, pin, a => by simp [recordFrom, BitTrie.leafAt]
  | b :: s, i, l, r, fp, h, pin, a => by
    obtain ⟨n, fl, fr, hn, hl, hr, -⟩ := h
    have hchild : ∀ (rec : Record) (u : BitTrie (Leaf ValueId)) (fu : List ℕ),
        Stores t.nodes v4 rec u fu →
        ((if s = [] then some rec else match rec with
          | .node c | .fixedNode c => recordFrom t s c
          | .noData | .data _ | .aliased _ | .reserved => none) = some (leafRecord v4 a) ↔
          u.leafAt s = some a) := by
      intro rec u fu hu
      cases u with
      | leaf c =>
        obtain ⟨rfl, -⟩ := hu
        cases s with
        | nil =>
          rw [if_pos rfl, Option.some.injEq, BitTrie.leafAt, Option.some.injEq]
          exact ⟨leafRecord_inj, fun hc => by rw [hc]⟩
        | cons d s =>
          rw [if_neg (List.cons_ne_nil d s)]
          cases c <;> simp [leafRecord, BitTrie.leafAt]
      | node pin' l' r' =>
        obtain ⟨c, rfl, -, hc⟩ := stores_node.mp hu
        cases s with
        | nil =>
          rw [if_pos rfl]
          cases pin' <;> cases a <;> simp [nodeRecord, leafRecord, BitTrie.leafAt]
        | cons d s =>
          rw [if_neg (List.cons_ne_nil d s), ← recordFrom_leaf hc pin' a]
          cases pin' <;> rfl
    rw [recordFrom, hn]
    cases b with
    | false => exact hchild _ l fl hl
    | true => exact hchild _ r fr hr

theorem length_le_of_recordFrom {t : Tree} {v4 : ℕ} : ∀ {s : List Bool} {i : ℕ}
    {l r : BitTrie (Leaf ValueId)} {fp : List ℕ} {rec : Record}, NodeStores t.nodes v4 i l r fp →
    ∀ pin, t.recordFrom s i = some rec → s.length ≤ (node pin l r).height
  | [], _, _, _, _, _, _, _, _ => by simp
  | b :: s, i, l, r, fp, rec, h, pin, hrec => by
    obtain ⟨n, fl, fr, hn, hl, hr, -⟩ := h
    have hchild : ∀ (rec' : Record) (u : BitTrie (Leaf ValueId)) (fu : List ℕ),
        Stores t.nodes v4 rec' u fu →
        (if s = [] then some rec' else match rec' with
          | .node c | .fixedNode c => recordFrom t s c
          | .noData | .data _ | .aliased _ | .reserved => none) = some rec →
        s.length ≤ u.height := by
      intro rec' u fu hu hs
      cases s with
      | nil => simp
      | cons d s =>
        rw [if_neg (List.cons_ne_nil d s)] at hs
        cases u with
        | leaf c =>
          obtain ⟨rfl, -⟩ := hu
          cases c <;> simp [leafRecord] at hs
        | node pin' l' r' =>
          obtain ⟨c, rfl, -, hc⟩ := stores_node.mp hu
          have hs' : t.recordFrom (d :: s) c = some rec := by
            cases pin' <;> exact hs
          exact length_le_of_recordFrom hc pin' hs'
    rw [recordFrom, hn] at hrec
    simp only [BitTrie.height, List.length_cons]
    cases b with
    | false =>
      have := hchild _ l fl hl hrec
      omega
    | true =>
      have := hchild _ r fr hr hrec
      omega

end Tree

namespace Writer

/-- A leaf of the tree at the end of the bits, empty or with data: the existing value an operation
is called with there. -/
def LeafAt (w : Writer) (s : List Bool) (old : Option Value) : Prop :=
  (w.tree.recordFrom s 0 = some .noData ∧ old = none) ∨
    ∃ id v, w.tree.recordFrom s 0 = some (.data id) ∧ w.pool.values[id]? = some v ∧ old = some v

theorem Models.leafAt_iff {w : Writer} {l r : BitTrie (Leaf Value)} (h : w.Models l r)
    (s : List Bool) (old : Option Value) :
    w.LeafAt s old ↔ ∃ a, (node false l r).leafAt s = some a ∧ a.holds = some old := by
  obtain ⟨li, ri, fp, hst, -, hli, hri⟩ := h
  have hleaf := fun a => Tree.recordFrom_leaf (s := s) hst false a
  have hroot : (node false li ri).Rel (IdRel w.pool) (node false l r) := ⟨rfl, hli, hri⟩
  have hrel := hroot.leafAt s
  constructor
  · rintro (⟨hrec, rfl⟩ | ⟨id, v, hrec, hv, rfl⟩)
    · rw [(hleaf .noData).mp hrec] at hrel
      cases hb : (node false l r).leafAt s with
      | none => simp [hb] at hrel
      | some b =>
        rw [hb, Option.rel_some_some] at hrel
        refine ⟨b, rfl, ?_⟩
        cases b <;> simp [IdRel, Leaf.Rel, Leaf.holds] at hrel ⊢
    · rw [(hleaf (.data id)).mp hrec] at hrel
      cases hb : (node false l r).leafAt s with
      | none => simp [hb] at hrel
      | some b =>
        rw [hb, Option.rel_some_some] at hrel
        refine ⟨b, rfl, ?_⟩
        cases b <;> simp [IdRel, Leaf.Rel, Leaf.holds, hv] at hrel ⊢
        exact hrel.symm
  · rintro ⟨b, hb, hold⟩
    cases ha : (node false li ri).leafAt s with
    | none => simp [ha, hb] at hrel
    | some a =>
      rw [ha, hb, Option.rel_some_some] at hrel
      have hrec := (hleaf a).mpr ha
      cases a <;> cases b <;> simp only [IdRel, Leaf.Rel, Leaf.holds, Option.some.injEq,
        reduceCtorEq] at hrel hold
      · exact Or.inl ⟨hrec, hold.symm⟩
      · exact Or.inr ⟨_, _, hrec, hrel, hold.symm⟩

theorem Models.exists_recordFrom {w : Writer} {l r : BitTrie (Leaf Value)} (h : w.Models l r)
    {s : List Bool} {a : Leaf Value} (ha : (node false l r).leafAt s = some a) :
    ∃ rec, w.tree.recordFrom s 0 = some rec := by
  obtain ⟨li, ri, fp, hst, -, hli, hri⟩ := h
  have hroot : (node false li ri).Rel (IdRel w.pool) (node false l r) := ⟨rfl, hli, hri⟩
  have hrel := hroot.leafAt s
  rw [ha] at hrel
  cases hb : (node false li ri).leafAt s with
  | none => simp [hb] at hrel
  | some b => exact ⟨_, (Tree.recordFrom_leaf hst false b).mpr hb⟩

section Promise

variable [Ipnet] {τ : Type}

/-- What a call of `insert_with` owes its caller: the operation has been called on some existing
values in a row, and the addresses of the network in one leaf of the tree before the call have the
answer of one of these calls, made with the value that was there; no path of the tree is longer than
an address. -/
structure PaintsOnce (w : Writer) (net : IpNet) (op : Option Value → τ → Option Value × τ)
    (t : τ) : Prop where
  answer : ∃ olds : List (Option Value),
    (answers op olds t).2 = (insertWith net op (w, t)).2.2 ∧
    ∀ ip q s old, addrPath w.ipVersion ip = some q → net.Covers w.ipVersion ip → s <+: q →
      w.LeafAt s old → ∃ (k : ℕ) (ans : Option Value), olds[k]? = some old ∧
        (answers op olds t).1[k]? = some ans ∧
        ∀ ip' q', addrPath w.ipVersion ip' = some q' → net.Covers w.ipVersion ip' → s <+: q' →
          (insertWith net op (w, t)).2.1.get ip' = .ok ans
  depth : ∀ s rec, (insertWith net op (w, t)).2.1.tree.recordFrom s 0 = some rec →
    s.length ≤ w.ipVersion.treeDepth

/-- Where one leaf of the tree covers the whole network, the operation answers two calls on its
value alike. -/
def AnswersAlike (w : Writer) (net : IpNet) (op : Option Value → τ → Option Value × τ) (t : τ) :
    Prop :=
  ∀ p s old, netPath w.ipVersion net = some p → s <+: p → w.LeafAt s old →
    (op old t).1 = (op old (op old t).2).1

/-- A writer that a run of calls leaves, the operations of which answered alike wherever a leaf was
split for them. -/
inductive Careful : Writer → Prop
  | build {b : WriterBuilder} {w : Writer} (h : b.build = .ok w) : Careful w
  | call {w : Writer} (h : Careful w) (c : Call) (hno : (exec c w).1 ≠ .error .panic) :
      Careful (exec c w).2
  | withOp {w : Writer} (h : Careful w) {τ : Type} (net : IpNet)
      (op : Option Value → τ → Option Value × τ) (t : τ)
      (hno : (insertWith net op (w, t)).1 ≠ .error .panic) (halike : w.AnswersAlike net op t) :
      Careful (insertWith net op (w, t)).2.1

omit [Ipnet] in
theorem alikeAt_of_answersAlike {w : Writer} {l r : BitTrie (Leaf Value)} (h : w.Models l r)
    {net : IpNet} {op : Option Value → τ → Option Value × τ} {t : τ} {p : List Bool}
    (hp : netPath w.ipVersion net = some p) (halike : w.AnswersAlike net op t) :
    AlikeAt op t l r p := by
  intro a old ha hold
  obtain ⟨s, hs, hleaf⟩ := BitTrie.exists_leafAt_of_coverAt ha
  exact halike p s old hp hs ((h.leafAt_iff s old).mpr ⟨a, hleaf, hold⟩)

theorem Careful.inv {w : Writer} (h : w.Careful) : ∃ l r, w.Inv l r := by
  induction h with
  | @build b w hb =>
    obtain ⟨w', l, r, hb', -, hinv, -⟩ := build_inv b
    rw [hb, Except.ok.injEq] at hb'
    exact ⟨l, r, hb' ▸ hinv⟩
  | call _ c hno ih =>
    obtain ⟨l, r, hinv⟩ := ih
    exact (hinv.exec_keeps c hno).2
  | @withOp w _ τ net op t hno halike ih =>
    obtain ⟨l, r, hinv⟩ := ih
    have hout := hinv.insertWith_outcome net op t
    generalize insertWith net op (w, t) = res at hout hno ⊢
    cases hout with
    | rejected _ => exact ⟨l, r, hinv⟩
    | done p lr hp hrun hopt hm hlen =>
      exact ⟨lr.1, lr.2, hinv.withOp_done (length_netPath_le hp) hrun hopt hm hlen fun _ =>
        alikeAt_of_answersAlike hinv.models hp halike⟩
    | full l' r' hopt hm hl hr hlen =>
      exact ⟨l', r', (hinv.of_sameMap hopt hm hl hr hlen).1⟩
    | panic => exact absurd rfl hno

variable {w : Writer} {l r : BitTrie (Leaf Value)} {net : IpNet}
  {op : Option Value → τ → Option Value × τ} {t t' : τ} {w' : Writer} {p : List Bool}
  {lr : BitTrie (Leaf Value) × BitTrie (Leaf Value)}

omit [Ipnet] in
/-- After a call every string of the network that leads through one leaf has one answer of a call
made with what the leaf held, if the leaf is not split or comes back as one. -/
theorem exists_answer (hrun : updateM (applyM op) p l r t = (.ok lr, t'))
    (halike : AlikeAt op t l r p) : ∃ olds : List (Option Value), (answers op olds t).2 = t' ∧
      ∀ q s a old, p <+: q → s <+: q → (node false l r).leafAt s = some a → a.holds = some old →
        ∃ (k : ℕ) (ans : Option Value), olds[k]? = some old ∧ (answers op olds t).1[k]? = some ans ∧
          ∀ q', p <+: q' → s <+: q' → ((node false lr.1 lr.2).eval q').value = ans := by
  obtain ⟨as, hcalls, hans, -⟩ := BitTrie.updateM_calls false hrun
  obtain ⟨hlast, hall⟩ := callAll_applyM hcalls
  refine ⟨_, hlast, fun q s a old hpq hsq hleaf hold => ?_⟩
  have hat : ∀ e, (e, a) ∈ (node false (subtries p l r).1 (subtries p l r).2).leaves →
      ∃ (k : ℕ) (b : Leaf Value), ((node false (subtries p l r).1 (subtries p l r).2).leaves.map
          Prod.snd |>.filterMap Leaf.holds)[k]? = some old ∧
        (answers op ((node false (subtries p l r).1 (subtries p l r).2).leaves.map
          Prod.snd |>.filterMap Leaf.holds) t).1[k]? = some b.value ∧
        ∀ q', (node false lr.1 lr.2).eval (p ++ (e ++ q')) = b := by
    intro e hmem
    obtain ⟨i, hi⟩ := List.mem_iff_getElem?.mp hmem
    obtain ⟨b, hb, hq⟩ := hans.exists_getElem? hi
    obtain ⟨k, hk, hans'⟩ := hall i a b old (by rw [List.getElem?_map, hi]; rfl) hb hold
    exact ⟨k, b, hk, hans', hq⟩
  by_cases hsp : s <+: p
  · have hcov := BitTrie.coverAt_of_prefix_leafAt hleaf hsp
    have hsub := BitTrie.subtries_of_coverAt false hcov
    obtain ⟨k, b, hk, hb, hfalse⟩ := hat [false] (by rw [hsub]; simp [BitTrie.leaves])
    have htrue : ∀ q', (node false lr.1 lr.2).eval (p ++ ([true] ++ q')) = b := by
      rw [hsub] at hcalls hans
      obtain ⟨b₁, t₁, h1, h2⟩ := Exec.bind_eq_ok hcalls
      obtain ⟨bs, t₂, h3, h4⟩ := Exec.bind_eq_ok h2
      obtain ⟨b₂, t₃, h5, h6⟩ := Exec.bind_eq_ok h3
      simp only [Exec.pure_apply, Prod.mk.injEq, Except.ok.injEq] at h4 h6
      obtain ⟨rfl, rfl⟩ := h6
      obtain ⟨rfl, rfl⟩ := h4
      have heq : b₁ = b₂ := twiceAlike_of_alikeAt halike hcov b₁ t₁ b₂ _ h1 h5
      obtain ⟨e₁, he⟩ := List.forall₂_cons.mp hans
      obtain ⟨e₂, -⟩ := List.forall₂_cons.mp he
      intro q'
      rw [e₂ q', ← heq, ← e₁ [], hfalse []]
    refine ⟨k, b.value, hk, hb, fun q' hpq' _ => ?_⟩
    obtain ⟨u, rfl⟩ := hpq'
    rcases u with _ | ⟨_ | _, u⟩
    · rw [← BitTrie.eval_append_replicate _ _ 1, List.append_nil]
      exact congrArg Leaf.value (hfalse [])
    · exact congrArg Leaf.value (hfalse u)
    · exact congrArg Leaf.value (htrue u)
  · obtain ⟨e, rfl⟩ := (List.prefix_or_prefix_of_prefix hsq hpq).resolve_left hsp
    have hcov : (node false l r).coverAt p = none :=
      BitTrie.coverAt_of_leafAt_append hleaf fun he => hsp (by rw [he, List.append_nil])
    obtain ⟨k, b, hk, hb, hq⟩ := hat e (BitTrie.mem_leaves.mpr
      (by rw [BitTrie.leafAt_subtries false hcov, hleaf]))
    refine ⟨k, b.value, hk, hb, fun q' _ hsq' => ?_⟩
    obtain ⟨u, rfl⟩ := hsq'
    rw [List.append_assoc]
    exact congrArg Leaf.value (hq u)

omit [Ipnet] in
theorem Inv.length_le {s : List Bool} {rec : Record} (h : w.Inv l r)
    (hrec : w.tree.recordFrom s 0 = some rec) : s.length ≤ w.ipVersion.treeDepth := by
  obtain ⟨li, ri, fp, hst, -, hli, hri⟩ := h.models
  have hheight : (node false li ri).height = (node false l r).height := by
    simp only [BitTrie.height, hli.height, hri.height]
  have := Tree.length_le_of_recordFrom hst false hrec
  rw [hheight] at this
  exact this.trans h.height

theorem Inv.paintsOnce (h : w.Inv l r) {net : IpNet} (halike : w.AnswersAlike net op t)
    (hok : (insertWith net op (w, t)).1 = .ok ()) : w.PaintsOnce net op t := by
  have hout := h.insertWith_outcome net op t
  generalize hres : insertWith net op (w, t) = res at hout hok
  cases hout with
  | rejected _ => cases hok
  | full _ _ _ _ _ _ _ => cases hok
  | panic => cases hok
  | @done w' t' p lr hp hrun hopt hm hlen =>
    have hver : w'.ipVersion = w.ipVersion := by rw [hopt]
    have hat := alikeAt_of_answersAlike h.models hp halike
    have hinv := h.withOp_done (length_netPath_le hp) hrun hopt hm hlen fun _ => hat
    obtain ⟨olds, hlast, hans⟩ := exists_answer hrun hat
    refine ⟨⟨olds, by rw [hres, hlast], fun ip q s old hq hcov hsq hleaf => ?_⟩, fun s rec hrec => ?_⟩
    · obtain ⟨a, hleafAt, hold⟩ := (h.models.leafAt_iff s old).mp hleaf
      obtain ⟨k, ans, hk, hak, hget⟩ :=
        hans q s a old ((covers_iff_path hp hq).mp hcov) hsq hleafAt hold
      refine ⟨k, ans, hk, hak, fun ip' q' hq' hcov' hsq' => ?_⟩
      rw [hres, hinv.get (by rw [hver, hq']), hget q' ((covers_iff_path hp hq').mp hcov') hsq']
    · rw [hres] at hrec
      rw [← hver]
      exact hinv.length_le hrec

theorem Inv.answersAlike (h : w.Inv l r) {net : IpNet}
    (hok : (insertWith net op (w, t)).1 = .ok ()) (honce : w.PaintsOnce net op t) :
    w.AnswersAlike net op t := by
  intro p s old hp hsp hleaf
  have hout := h.insertWith_outcome net op t
  generalize hres : insertWith net op (w, t) = res at hout hok
  cases hout with
  | rejected _ => cases hok
  | full _ _ _ _ _ _ _ => cases hok
  | panic => cases hok
  | @done w' t' p' lr hp' hrun hopt hm hlen =>
    rw [hp, Option.some.injEq] at hp'
    subst hp'
    have hver : w'.ipVersion = w.ipVersion := by rw [hopt]
    have hplen := length_netPath_le hp
    obtain ⟨a, hleafAt, hold⟩ := (h.models.leafAt_iff s old).mp hleaf
    have hcov := BitTrie.coverAt_of_prefix_leafAt hleafAt hsp
    obtain ⟨as, hcalls, hans, -⟩ := BitTrie.updateM_calls false hrun
    rw [BitTrie.subtries_of_coverAt false hcov] at hcalls hans
    obtain ⟨b₁, t₁, h1, h2⟩ := Exec.bind_eq_ok hcalls
    obtain ⟨bs, t₂, h3, h4⟩ := Exec.bind_eq_ok h2
    obtain ⟨b₂, t₃, h5, h6⟩ := Exec.bind_eq_ok h3
    simp only [Exec.pure_apply, Prod.mk.injEq, Except.ok.injEq] at h4 h6
    obtain ⟨rfl, rfl⟩ := h6
    obtain ⟨rfl, rfl⟩ := h4
    rw [applyM_of_holds hold, Prod.mk.injEq, Except.ok.injEq] at h1
    obtain ⟨rfl, rfl⟩ := h1
    rw [applyM_of_holds hold, Prod.mk.injEq, Except.ok.injEq] at h5
    obtain ⟨rfl, -⟩ := h5
    obtain ⟨hfalse, he⟩ := List.forall₂_cons.mp hans
    obtain ⟨htrue, -⟩ := List.forall₂_cons.mp he
    by_cases hdepth : p.length = w.ipVersion.treeDepth
    · by_contra hne
      have hnone : (node false lr.1 lr.2).coverAt p = none := by
        cases hc : (node false lr.1 lr.2).coverAt p with
        | none => rfl
        | some c =>
          have heq := (hfalse []).symm.trans ((BitTrie.coverAt_eq_some hc _).trans
            ((BitTrie.coverAt_eq_some hc _).symm.trans (htrue [])))
          have hval := congrArg Leaf.value heq
          rw [value_elim, value_elim] at hval
          exact absurd hval hne
      obtain ⟨s', c, _, hs'⟩ := BitTrie.exists_leafAt_of_coverAt_none hnone
      obtain ⟨rec, hrec⟩ := hm.exists_recordFrom hs'
      have := honce.depth s' rec (by rw [hres]; exact hrec)
      omega
    · have hinv := h.withOp_done hplen hrun hopt hm hlen fun hd => absurd hd hdepth
      have hhalf : ∀ b, ∃ ip, addrPath w.ipVersion ip =
          some (p ++ ([b] ++ List.replicate (w.ipVersion.treeDepth - p.length - 1) false)) :=
        fun b => exists_addrPath w.ipVersion (by
          simp only [List.length_append, List.length_cons, List.length_nil, List.length_replicate]
          omega)
      have hget : ∀ b ip, addrPath w.ipVersion ip =
          some (p ++ ([b] ++ List.replicate (w.ipVersion.treeDepth - p.length - 1) false)) →
          w'.get ip = .ok (if b then (op old (op old t).2).1 else (op old t).1) := by
        intro b ip hip
        rw [hinv.get (by rw [hver, hip])]
        cases b with
        | false => exact congrArg Except.ok ((congrArg Leaf.value (hfalse _)).trans (value_elim _))
        | true => exact congrArg Except.ok ((congrArg Leaf.value (htrue _)).trans (value_elim _))
      obtain ⟨ip₁, hip₁⟩ := hhalf false
      obtain ⟨ip₂, hip₂⟩ := hhalf true
      obtain ⟨olds, -, hall⟩ := honce.answer
      have hcov₁ := (covers_iff_path hp hip₁).mpr (List.prefix_append _ _)
      have hcov₂ := (covers_iff_path hp hip₂).mpr (List.prefix_append _ _)
      obtain ⟨k, ans, -, -, hone⟩ := hall ip₁ _ s old hip₁ hcov₁
        (hsp.trans (List.prefix_append _ _)) hleaf
      have hans₁ := hone ip₁ _ hip₁ hcov₁ (hsp.trans (List.prefix_append _ _))
      have hans₂ := hone ip₂ _ hip₂ hcov₂ (hsp.trans (List.prefix_append _ _))
      rw [hres] at hans₁ hans₂
      have h1 := (hget false ip₁ hip₁).symm.trans hans₁
      have h2 := (hget true ip₂ hip₂).symm.trans hans₂
      exact Except.ok.inj (h1.trans h2.symm)

/-- A call of `insert_with` paints once exactly where no leaf around the network is answered twice
and differently; in a run without such a call the tree stays within the depth of its addresses. -/
theorem paintsOnce_iff {w : Writer} (hw : w.Careful) :
    (∀ s rec, w.tree.recordFrom s 0 = some rec → s.length ≤ w.ipVersion.treeDepth) ∧
    ∀ {τ : Type} (net : IpNet) (op : Option Value → τ → Option Value × τ) (t : τ),
      (insertWith net op (w, t)).1 = .ok () →
      (w.PaintsOnce net op t ↔ w.AnswersAlike net op t) := by
  obtain ⟨l, r, h⟩ := hw.inv
  exact ⟨fun s rec => h.length_le, fun net op t hok =>
    ⟨h.answersAlike hok, fun halike => h.paintsOnce halike hok⟩⟩

/-- An operation that numbers its calls. -/
def counter (_ : Option Value) (n : ℕ) : Option Value × ℕ := (some (.u32 (BitVec.ofNat 32 n)), n + 1)

omit [Ipnet] in
theorem paintsOnce_iff_halves :
    let _ := Ipnet.std
    let half : Call := .insert (.value (.v4 ⟨0x01000000, 9, by decide⟩) (.string "a"))
    ∃ w : Writer, ({ databaseType := "City", ipVersion := .v4 } : WriterBuilder).build = .ok w ∧
      ((exec half w).2.PaintsOnce (.v4 ⟨0x01000000, 8, by decide⟩) counter 0 ↔
        (exec half w).2.AnswersAlike (.v4 ⟨0x01000000, 8, by decide⟩) counter 0) := by
  intro _ half
  obtain ⟨w, l, r, hb, -⟩ := build_inv { databaseType := "City", ipVersion := .v4 }
  have hok : (match ({ databaseType := "City", ipVersion := .v4 } : WriterBuilder).build with
      | .ok w => decide ((exec half w).1 ≠ .error .panic ∧
        (insertWith (.v4 ⟨0x01000000, 8, by decide⟩) counter ((exec half w).2, 0)).1 = .ok ())
      | .error _ => false) = true := by
    decide +kernel
  rw [hb] at hok
  obtain ⟨hno, hok⟩ := of_decide_eq_true hok
  exact ⟨w, hb, (paintsOnce_iff ((Careful.build hb).call half hno)).2 _ _ _ hok⟩

omit [Ipnet] in
/-- A host route in an empty leaf is asked for twice; two answers that differ hang below the
address, where `get` finds none. -/
theorem not_paintsOnce_host :
    let _ := Ipnet.std
    ∃ w : Writer, ({ databaseType := "City", ipVersion := .v4 } : WriterBuilder).build = .ok w ∧
      (insertWith (.v4 ⟨0x01020304, 32, by decide⟩) counter (w, 0)).1 = .ok () ∧
      (insertWith (.v4 ⟨0x01020304, 32, by decide⟩) counter (w, 0)).2.2 = 2 ∧
      (insertWith (.v4 ⟨0x01020304, 32, by decide⟩) counter (w, 0)).2.1.get (.v4 0x01020304) =
        .ok none ∧
      ¬ w.PaintsOnce (.v4 ⟨0x01020304, 32, by decide⟩) counter 0 := by
  intro _
  obtain ⟨w, l, r, hb, -⟩ := build_inv { databaseType := "City", ipVersion := .v4 }
  have hrun : (match ({ databaseType := "City", ipVersion := .v4 } : WriterBuilder).build with
      | .ok w => let res := insertWith (.v4 ⟨0x01020304, 32, by decide⟩) counter (w, 0)
        decide (res.1 = .ok () ∧ res.2.2 = 2 ∧ res.2.1.get (.v4 0x01020304) = .ok none ∧
          w.ipVersion = .v4 ∧
          res.2.1.tree.recordFrom ((0x01020304#32).msbs ++ [false]) 0 = some (.data 0))
      | .error _ => false) = true := by
    decide +kernel
  rw [hb] at hrun
  obtain ⟨h1, h2, h3, hver, h4⟩ := of_decide_eq_true hrun
  refine ⟨w, hb, h1, h2, h3, fun honce => ?_⟩
  have := honce.depth _ _ h4
  rw [hver] at this
  exact absurd this (by decide)

end Promise

end Writer

end MmdbWriter
