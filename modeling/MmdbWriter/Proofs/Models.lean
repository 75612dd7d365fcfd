import MmdbWriter.Calls
import MmdbWriter.Proofs.InsertNode
import MmdbWriter.Space

/-!
# The tries of values a writer stands for

The ids of a tree mean their values in the pool, so that a writer stands for a pair of tries with
values at the leaves, below its root. `get` looks an address up in them.
-/

namespace MmdbWriter

open BitTrie (leaf node)

namespace Leaf

variable {α : Type}

/-- An operation on the value of a leaf that holds or may hold data. -/
def apply (f : Option α → Option α) : Leaf α → Leaf α
  | noData => (f none).elim noData data
  | data v => (f (some v)).elim noData data
  | reserved => reserved
  | aliased => aliased

theorem value_apply (f : Option α → Option α) {a : Leaf α} (hr : a ≠ reserved)
    (ha : a ≠ aliased) : (a.apply f).value = f a.value := by
  rcases a with _ | v | _ | _
  · rcases h : f none with _ | v <;> simp [apply, value, h]
  · rcases h : f (some v) with _ | v' <;> simp [apply, value, h]
  · exact absurd rfl hr
  · exact absurd rfl ha

theorem apply_eq_reserved (f : Option α → Option α) {a : Leaf α} :
    a.apply f = reserved ↔ a = reserved := by
  rcases a with _ | v | _ | _
  · rcases h : f none with _ | v <;> simp [apply, h]
  · rcases h : f (some v) with _ | v' <;> simp [apply, h]
  · simp [apply]
  · simp [apply]

theorem apply_eq_aliased (f : Option α → Option α) {a : Leaf α} :
    a.apply f = aliased ↔ a = aliased := by
  rcases a with _ | v | _ | _
  · rcases h : f none with _ | v <;> simp [apply, h]
  · rcases h : f (some v) with _ | v' <;> simp [apply, h]
  · simp [apply]
  · simp [apply]

theorem eq_of_value_eq {a b : Leaf α} (har : a ≠ reserved) (haa : a ≠ aliased)
    (hbr : b ≠ reserved) (hba : b ≠ aliased) (h : a.value = b.value) : a = b := by
  cases a <;> cases b <;> simp_all [value]

end Leaf

/-- The id's value in the pool is the leaf's. -/
def IdRel (pool : ValuePool) : Leaf ValueId → Leaf Value → Prop :=
  Leaf.Rel fun id v => pool.values[id]? = some v

namespace IdRel

variable {pool pool' : ValuePool}

theorem mono (h : pool.Le pool') {a : Leaf ValueId} {b : Leaf Value} (hab : IdRel pool a b) :
    IdRel pool' a b := by
  cases a <;> cases b <;> simp only [IdRel, Leaf.Rel] at hab ⊢
  exact h.getElem? hab

theorem inj {a a' : Leaf ValueId} {b b' : Leaf Value} (h : IdRel pool a b)
    (h' : IdRel pool a' b') : a = a' ↔ b = b' := by
  cases a <;> cases b <;> simp only [IdRel, Leaf.Rel] at h <;>
    cases a' <;> cases b' <;> simp only [IdRel, Leaf.Rel] at h' <;> simp
  constructor
  · rintro rfl
    rw [h] at h'
    exact Option.some.inj h'
  · rintro rfl
    exact pool.id_unique h h'

theorem right_unique {a : Leaf ValueId} {b b' : Leaf Value} (h : IdRel pool a b)
    (h' : IdRel pool a b') : b = b' := (h.inj h').mp rfl

theorem aliased_iff {a : Leaf ValueId} {b : Leaf Value} (h : IdRel pool a b) :
    a = .aliased ↔ b = .aliased := by
  cases a <;> cases b <;> simp_all [IdRel, Leaf.Rel]

theorem reserved_iff {a : Leaf ValueId} {b : Leaf Value} (h : IdRel pool a b) :
    a = .reserved ↔ b = .reserved := by
  cases a <;> cases b <;> simp_all [IdRel, Leaf.Rel]

end IdRel

/-- The writer's tree and pool stand for the two tries below the root. -/
def Writer.Models (w : Writer) (l r : BitTrie (Leaf Value)) : Prop :=
  ∃ li ri fp, NodeStores w.tree.nodes 0 0 li ri fp ∧ fp.Nodup ∧ li.Rel (IdRel w.pool) l ∧
    ri.Rel (IdRel w.pool) r

section Get

/-- The rest of a lookup at a record. -/
def Tree.getAt (t : Tree) (bits : BitVec 128) (left depth : ℕ) :
    Record → Except Fault (Option ValueId)
  | .node i | .fixedNode i | .aliased i => t.getFrom bits left depth i
  | .data id => .ok (some id)
  | .noData | .reserved => .ok none

/-- A lookup goes on at the record the next bit selects. -/
theorem Tree.getFrom_succ {t : Tree} (bits : BitVec 128) (left : ℕ) {depth i : ℕ} {n : Node}
    (hdepth : depth ≤ 127) (hn : t.nodes[i]? = some n) :
    t.getFrom bits (left + 1) depth i =
      t.getAt bits left (depth + 1) (n.child (bits.getMsbD depth)) := by
  unfold Tree.getFrom Tree.nodeAt
  rw [Tree.walkBit_eq hdepth, hn]
  cases hc : n.child (bits.getMsbD depth) <;> simp [bind, Except.bind, hc, Tree.getAt]

/-- A lookup below a node ends at the leaf the bits lead to. -/
theorem getFrom_spec {t : Tree} {v4 : ℕ} (bits : BitVec 128) :
    ∀ (left depth i : ℕ) (l r : BitTrie (Leaf ValueId)) (fp : List ℕ),
      NodeStores t.nodes v4 i l r fp → l.height < left → r.height < left → depth + left ≤ 128 →
      l.Forall (· ≠ .aliased) → r.Forall (· ≠ .aliased) →
      t.getFrom bits left depth i =
        .ok ((node false l r).eval (bits.msbs.drop depth)).value := by
  intro left
  induction left with
  | zero =>
    intro depth i l r fp _ hl
    omega
  | succ left ih =>
    intro depth i l r fp hst hl hr hdepth hla hra
    obtain ⟨nd, fl, fr, hnd, hsl, hsr, rfl⟩ := hst
    have hlen : depth < bits.msbs.length := by
      rw [BitVec.length_msbs]
      omega
    have hbit : bits.msbs[depth] = bits.getMsbD depth := by
      have := BitVec.getElem?_msbs bits depth
      rw [List.getElem?_eq_getElem hlen, if_pos (by omega), Option.some.injEq] at this
      exact this
    have hchild : ∀ (rec : Record) (u : BitTrie (Leaf ValueId)) (fu : List ℕ),
        Stores t.nodes v4 rec u fu → u.height < left + 1 → u.Forall (· ≠ .aliased) →
        t.getAt bits left (depth + 1) rec = .ok (u.eval (bits.msbs.drop (depth + 1))).value := by
      intro rec u fu hu hh hf
      cases u with
      | leaf a =>
        obtain ⟨rfl, -⟩ := hu
        cases a <;> simp_all [leafRecord, Leaf.value, BitTrie.Forall, Tree.getAt]
      | node pin l' r' =>
        obtain ⟨c, rfl, -, hc⟩ := stores_node.mp hu
        simp only [BitTrie.height] at hh
        have h := ih (depth + 1) c l' r' fu hc (by omega) (by omega) (by omega) hf.1 hf.2
        rw [BitTrie.eval_pin pin false, ← h]
        cases pin <;> rfl
    rw [Tree.getFrom_succ bits left (by omega) hnd, List.drop_eq_getElem_cons hlen, hbit,
      BitTrie.eval_node_cons]
    cases bits.getMsbD depth with
    | false => exact hchild nd.left l fl hsl hl hla
    | true => exact hchild nd.right r fr hsr hr hra

variable [Ipnet]

/-- `get` finds the value the tries hold for the address. -/
theorem Writer.get_eq {w : Writer} {l r : BitTrie (Leaf Value)} {ip : IpAddr} {q : List Bool}
    (hm : w.Models l r) (hl : l.height < w.ipVersion.treeDepth)
    (hr : r.height < w.ipVersion.treeDepth) (ha : ∀ p, (node false l r).eval p ≠ .aliased)
    (hq : addrPath w.ipVersion ip = some q) :
    w.get ip = .ok ((node false l r).eval q).value := by
  obtain ⟨li, ri, fp, hst, -, hli, hri⟩ := hm
  have hrel : (node false li ri).Rel (IdRel w.pool) (node false l r) := ⟨rfl, hli, hri⟩
  have hfa : (node false li ri).Forall (· ≠ .aliased) :=
    BitTrie.forall_of_eval fun p h => ha p ((hrel.eval p).aliased_iff.mp h)
  rcases toTreePrefix_cases (.ofAddr ip) w.ipVersion with
    ⟨bits, len, hpre, hlen, hpath⟩ | ⟨-, -, -, hpath, -⟩
  · rw [netPath_ofAddr, hq, Option.some.injEq] at hpath
    have hle : w.ipVersion.treeDepth ≤ 128 := by cases w.ipVersion <;> decide
    have hlq := length_addrPath hq
    have htree : w.tree.get bits w.ipVersion.treeDepth =
        .ok ((node false li ri).eval q).value := by
      unfold Tree.get
      rw [getFrom_spec bits _ 0 0 li ri fp hst (by rw [hli.height]; exact hl)
        (by rw [hri.height]; exact hr) (by omega) hfa.1 hfa.2, List.drop_zero, hpath]
      have hlt : (bits.msbs.take len).length = len := by
        rw [List.length_take, BitVec.length_msbs]
        omega
      have hheight : (node false li ri).height ≤ len := by
        rw [← hlt, ← hpath, hlq]
        simp only [BitTrie.height, hli.height, hri.height]
        omega
      rw [BitTrie.eval_take _ len _ hheight]
    unfold Writer.get
    rw [hpre]
    simp only [htree]
    have hrq := hrel.eval q
    rcases h1 : (node false li ri).eval q with _ | id | _ | _ <;>
      rcases h2 : (node false l r).eval q with _ | v | _ | _ <;>
      simp only [h1, h2, IdRel, Leaf.Rel] at hrq <;> try rfl
    simp only [Leaf.value, ValuePool.get, bind, Except.bind, hrq]
  · rw [netPath_ofAddr, hq] at hpath
    simp at hpath

theorem Writer.get_of_addrPath_none {w : Writer} {ip : IpAddr}
    (hq : addrPath w.ipVersion ip = none) : w.get ip = .ok none := by
  rcases toTreePrefix_cases (.ofAddr ip) w.ipVersion with
    ⟨bits, len, -, -, hpath⟩ | ⟨n, -, -, -, herr⟩
  · rw [netPath_ofAddr, hq] at hpath
    simp at hpath
  · unfold Writer.get
    rw [herr]

end Get

end MmdbWriter
