import MmdbWriter.Proofs.Effect
import MmdbWriter.Proofs.Painted

/-!
# The invariant of a writer

Every writer stands for tries with a reserved leaf exactly at the addresses its options reserve, no
higher than its addresses are long, and reduced as long as the vector of nodes is not full. A step
lemma says what one insert does to the tries, whichever way it ends.
-/

namespace MmdbWriter

open BitTrie (leaf node)

namespace Writer

/-- What holds of a writer that stands for the tries `l` and `r`. -/
structure Inv (w : Writer) (l r : BitTrie (Leaf Value)) : Prop where
  models : w.Models l r
  unpinned : (node false l r).Unpinned
  height : (node false l r).height ≤ w.ipVersion.treeDepth
  not_aliased : ∀ p, (node false l r).eval p ≠ .aliased
  reserved_iff : ∀ q, q.length = w.ipVersion.treeDepth →
    ((node false l r).eval q = .reserved ↔ ∃ p ∈ w.reservedPaths, p <+: q)
  reduced : w.tree.nodes.length < 2 ^ 32 →
    l.ReducedOn (· ≠ .reserved) ∧ r.ReducedOn (· ≠ .reserved)

theorem Inv.height_lt {w : Writer} {l r : BitTrie (Leaf Value)} (h : w.Inv l r) :
    l.height < w.ipVersion.treeDepth ∧ r.height < w.ipVersion.treeDepth := by
  have := h.height
  simp only [BitTrie.height] at this
  omega

theorem treeDepth_pos (ipVersion : IpVersion) : 0 < ipVersion.treeDepth := by
  cases ipVersion <;> decide

section Build

variable [Ipnet]

/-- A writer is built with the invariant and without data, and its leaves are those of the painted
trie. -/
theorem build_inv (b : WriterBuilder) : ∃ w l r, b.build = .ok w ∧
    w.toWriterBuilder = { b with description := w.description } ∧ w.Inv l r ∧
    (∀ q, ((node false l r).eval q).value = none) ∧
    ∀ q, (b.paintedTrie.coverAt q).isSome → ((node false l r).coverAt q).isSome := by
  obtain ⟨w, li, ri, fp, hb, hopt, hpool, hst, hnd, heq⟩ := build_stores b
  have hlab := b.forall_paintedTrie
  obtain ⟨u, hu⟩ := BitTrie.exists_rel (R := IdRel w.pool) (t := b.paintedTrie) fun p => by
    rcases hlab.eval p with h | h <;> rw [h]
    · exact ⟨.noData, trivial⟩
    · exact ⟨.reserved, trivial⟩
  rw [← heq] at hu
  obtain ⟨l, r, rfl⟩ : ∃ l r, u = node false l r := by
    rcases u with _ | ⟨pin, l, r⟩
    · exact hu.elim
    · exact ⟨l, r, by rw [hu.1]⟩
  have hver : w.ipVersion = b.ipVersion := by rw [hopt]
  have hpaths : w.reservedPaths = b.reservedPaths := by rw [hopt]; rfl
  have hcases : ∀ q, (node false l r).eval q = .noData ∧ b.paintedTrie.eval q = .noData ∨
      (node false l r).eval q = .reserved ∧ b.paintedTrie.eval q = .reserved := by
    intro q
    have h := hu.eval q
    rw [heq] at h
    rcases hlab.eval q with h' | h' <;> rw [h'] at h ⊢ <;>
      cases hq : (node false l r).eval q <;> simp [hq, IdRel, Leaf.Rel] at h ⊢
  have hred := b.reduced_paintedTrie heq.symm
  have hreserved : ∀ (a : Leaf ValueId) (c : Leaf Value), IdRel w.pool a c → c ≠ .reserved →
      a ≠ .reserved := fun a c hac hc ha => hc (hac.reserved_iff.mp ha)
  refine ⟨w, l, r, hb, hopt, ⟨⟨li, ri, fp, hst, hnd, hu.2.1, hu.2.2⟩, ?_, ?_, ?_, ?_, ?_⟩, ?_, ?_⟩
  · rw [← hu.unpinned, heq]
    exact b.unpinned_paintedTrie
  · rw [← hu.height, heq, hver]
    exact b.height_paintedTrie_le
  · intro p h
    rcases hcases p with ⟨h', -⟩ | ⟨h', -⟩ <;> simp [h'] at h
  · intro q hq
    rw [hver] at hq
    have hp := b.eval_paintedTrie hq
    rw [hpaths]
    rcases hcases q with ⟨h1, h2⟩ | ⟨h1, h2⟩ <;> rw [h2] at hp <;> rw [h1]
    · refine ⟨fun h => absurd h (by simp), fun hex => ?_⟩
      rw [if_pos hex] at hp
      cases hp
    · refine ⟨fun _ => ?_, fun _ => rfl⟩
      by_contra hno
      rw [if_neg hno] at hp
      cases hp
  · exact fun _ => ⟨hu.2.1.reducedOn (fun _ _ _ _ => IdRel.inj) hreserved hred.1,
      hu.2.2.reducedOn (fun _ _ _ _ => IdRel.inj) hreserved hred.2⟩
  · intro q
    rcases hcases q with ⟨h, -⟩ | ⟨h, -⟩ <;> rw [h] <;> rfl
  · intro q hq
    rw [← heq] at hq
    rcases hu.coverAt q with ⟨h, -⟩ | ⟨-, c, -, h, -⟩
    · rw [h] at hq
      cases hq
    · rw [h]
      rfl

end Build

section Step

variable {w : Writer} {l r : BitTrie (Leaf Value)}

/-- Tries with the same map and the same options keep the invariant of a full writer. -/
theorem Inv.of_sameMap (h : w.Inv l r) {w' : Writer} {l' r' : BitTrie (Leaf Value)}
    (hopt : w'.toWriterBuilder = w.toWriterBuilder) (hm : w'.Models l' r')
    (hl : BitTrie.SameMap (w.ipVersion.treeDepth - 1) l l')
    (hr : BitTrie.SameMap (w.ipVersion.treeDepth - 1) r r')
    (hlen : 2 ^ 32 ≤ w'.tree.nodes.length) :
    w'.Inv l' r' ∧ ∀ q, (node false l' r').eval q = (node false l r).eval q := by
  have hver : w'.ipVersion = w.ipVersion := by rw [hopt]
  have hpaths : w'.reservedPaths = w.reservedPaths := by rw [hopt]
  have heval : ∀ q, (node false l' r').eval q = (node false l r).eval q := by
    rintro (_ | ⟨_ | _, q⟩)
    · simp [hl.eval]
    · simp [hl.eval]
    · simp [hr.eval]
  refine ⟨⟨hm, ⟨rfl, hl.unpinned h.unpinned.2.1, hr.unpinned h.unpinned.2.2⟩, ?_, ?_, ?_, ?_⟩, heval⟩
  · have h1 := hl.height
    have h2 := hr.height
    have h3 := treeDepth_pos w.ipVersion
    rw [hver]
    simp only [BitTrie.height]
    omega
  · intro p
    rw [heval]
    exact h.not_aliased p
  · intro q hq
    rw [heval, hpaths]
    exact h.reserved_iff q (by rw [hq, hver])
  · intro hlt
    omega

/-- An operation below a prefix keeps the invariant. -/
theorem Inv.update (h : w.Inv l r) {w' : Writer} {f : Option Value → Option Value} {p : List Bool}
    (hp : p.length ≤ w.ipVersion.treeDepth) (hopt : w'.toWriterBuilder = w.toWriterBuilder)
    (hm : w'.Models (BitTrie.update (Leaf.apply f) p l r).1 (BitTrie.update (Leaf.apply f) p l r).2)
    (hlen : w.tree.nodes.length ≤ w'.tree.nodes.length) :
    w'.Inv (BitTrie.update (Leaf.apply f) p l r).1 (BitTrie.update (Leaf.apply f) p l r).2 := by
  have hver : w'.ipVersion = w.ipVersion := by rw [hopt]
  have hpaths : w'.reservedPaths = w.reservedPaths := by rw [hopt]
  have hpos := treeDepth_pos w.ipVersion
  have hlt := h.height_lt
  have hu := BitTrie.unpinned_update (Leaf.apply f) p h.unpinned.2.1 h.unpinned.2.2
  refine ⟨hm, ⟨rfl, hu⟩, ?_, ?_, ?_, ?_⟩
  · have hh := BitTrie.height_update (Leaf.apply f) p (n := w.ipVersion.treeDepth - 1)
      (show l.height ≤ _ by omega) (show r.height ≤ _ by omega) (by omega)
    rw [hver]
    simp only [BitTrie.height]
    omega
  · intro q
    have hle : p.length ≤ (q ++ List.replicate p.length false).length := by simp
    rw [← BitTrie.eval_append_replicate _ q p.length,
      BitTrie.eval_update (Leaf.apply f) false p l r _ hle]
    split_ifs
    · rw [Ne, Leaf.apply_eq_aliased]
      exact h.not_aliased _
    · exact h.not_aliased _
  · intro q hq
    rw [hver] at hq
    rw [BitTrie.eval_update (Leaf.apply f) false p l r q (by omega), hpaths]
    split_ifs
    · rw [Leaf.apply_eq_reserved]
      exact h.reserved_iff q hq
    · exact h.reserved_iff q hq
  · intro hlt'
    have hred := h.reduced (by omega)
    exact BitTrie.reducedOn_update (Leaf.apply f) p hred.1 hred.2

variable [Ipnet]

/-- How one insert can end, and what it does to the tries the writer stands for. -/
inductive InsertStep (w : Writer) (l r : BitTrie (Leaf Value)) (i : Insert) :
    Except Fault Unit × Writer → Prop
  | rejected {e} (hno : ¬ w.Accepts i.net) : InsertStep w l r i (.error (.err e), w)
  | done {w'} (l' r' p) (hacc : w.Accepts i.net) (hp : netPath w.ipVersion i.net = some p)
      (hopt : w'.toWriterBuilder = w.toWriterBuilder) (hinv : w'.Inv l' r')
      (heval : ∀ q, q.length = w.ipVersion.treeDepth → (node false l' r').eval q =
        if p <+: q then ((node false l r).eval q).apply i.op else (node false l r).eval q) :
      InsertStep w l r i (.ok (), w')
  | full {w'} (l' r') (hacc : w.Accepts i.net) (hopt : w'.toWriterBuilder = w.toWriterBuilder)
      (hinv : w'.Inv l' r') (heval : ∀ q, (node false l' r').eval q = (node false l r).eval q)
      (hlen : 2 ^ 32 ≤ w'.tree.nodes.length) :
      InsertStep w l r i (.error (fullFault w'.tree), w')
  | panic {w'} (hpool : 2 ^ 32 ≤ w'.pool.values.length) : InsertStep w l r i (.error .panic, w')

/-- The step lemma of the inserts. -/
theorem Inv.insert_step (h : w.Inv l r) (i : Insert) : InsertStep w l r i (i.exec w) := by
  obtain ⟨hl, hr⟩ := h.height_lt
  rcases exec_insert_cases h.models hl hr i with ⟨hno, e, herr⟩ | ⟨hacc, p, hp, heff⟩
  · rw [herr]
    exact .rejected hno
  · have hlen := length_netPath_le hp
    generalize i.exec w = res at heff
    cases heff with
    | done hopt hm hmono =>
      refine .done _ _ p hacc hp hopt (h.update hlen hopt hm hmono) fun q hq => ?_
      exact BitTrie.eval_update (Leaf.apply i.op) false p l r q (by omega)
    | full l' r' hopt hm hsl hsr hfull =>
      obtain ⟨hinv, heval⟩ := h.of_sameMap hopt hm hsl hsr hfull
      exact .full l' r' hacc hopt hinv heval hfull
    | panic hpool => exact .panic hpool

end Step

end Writer

end MmdbWriter
