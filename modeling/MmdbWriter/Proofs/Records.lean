import MmdbWriter.Layout
import MmdbWriter.Proofs.Encoding

/-!
# Packing the records

A serialized tree is its nodes one after the other, each on as many bytes as the record size says, and
a reader finds both records of every node in it.
-/

namespace MmdbWriter

open Bytes (beNat readBe)

namespace Tree

section Encode

variable {nodeCount : ℕ} {size : RecordSize} {idToOffset : List (ValueId × ℕ)}

theorem encodeRecord_eq (rec : Record) : encodeRecord rec nodeCount size idToOffset =
    match recordValue nodeCount idToOffset rec with
    | none => .error .panic
    | some v => if v ≥ size.maxValue then
        .error (.err (.treeTooLarge nodeCount size.maxValue size)) else .ok v := by
  cases rec with
  | data id =>
    unfold encodeRecord recordValue
    rcases h : idToOffset.lookup id with _ | offset <;> simp only [h] <;> rfl
  | noData | reserved => rfl
  | node i | fixedNode i | aliased i => rfl

theorem encodeRecord_eq_ok {rec : Record} {v : ℕ} :
    encodeRecord rec nodeCount size idToOffset = .ok v ↔
      recordValue nodeCount idToOffset rec = some v ∧ v < size.maxValue := by
  rw [encodeRecord_eq]
  rcases recordValue nodeCount idToOffset rec with _ | u
  · simp
  · simp only [Option.some.injEq]
    split_ifs with h
    · simp only [false_iff, not_and, not_lt]
      rintro rfl
      exact h
    · simp only [Except.ok.injEq]
      constructor
      · rintro rfl
        exact ⟨rfl, Nat.lt_of_not_ge h⟩
      · exact fun h => h.1

theorem encodeRecord_ne_panic (size : RecordSize) {rec : Record}
    (h : recordValue nodeCount idToOffset rec ≠ none) :
    encodeRecord rec nodeCount size idToOffset ≠ .error .panic := by
  rw [encodeRecord_eq]
  rcases hv : recordValue nodeCount idToOffset rec with _ | v
  · exact absurd hv h
  · simp only []
    split_ifs <;> simp

/-- The records of the nodes have these values, and there is room for them. -/
def Packs (nodeCount : ℕ) (size : RecordSize) (idToOffset : List (ValueId × ℕ)) :
    List Node → List (ℕ × ℕ) → Prop :=
  List.Forall₂ fun n v =>
    (recordValue nodeCount idToOffset n.left = some v.1 ∧ v.1 < size.maxValue) ∧
      recordValue nodeCount idToOffset n.right = some v.2 ∧ v.2 < size.maxValue

/-- Serializing the nodes is writing the pairs of their records' values. -/
theorem serializeNodes_eq_ok : ∀ {nodes : List Node} {bytes : List UInt8},
    serializeNodes nodeCount size idToOffset nodes = .ok bytes ↔
      ∃ values, Packs nodeCount size idToOffset nodes values ∧
        bytes = values.flatMap fun v => writeRecordPair v.1 v.2 size
  | [], bytes => by
    simp only [serializeNodes, Except.ok.injEq]
    constructor
    · rintro rfl
      exact ⟨[], .nil, rfl⟩
    · rintro ⟨_, ⟨⟩, rfl⟩
      rfl
  | n :: nodes, bytes => by
    constructor
    · intro h
      unfold serializeNodes at h
      rcases hl : encodeRecord n.left nodeCount size idToOffset with _ | l <;>
        rw [hl] at h <;> simp only [bind, Except.bind, reduceCtorEq] at h
      rcases hr : encodeRecord n.right nodeCount size idToOffset with _ | r <;>
        rw [hr] at h <;> simp only [reduceCtorEq] at h
      rcases hn : serializeNodes nodeCount size idToOffset nodes with _ | out <;>
        rw [hn] at h <;> simp only [reduceCtorEq, Except.ok.injEq] at h
      obtain ⟨values, hvalues, rfl⟩ := serializeNodes_eq_ok.mp hn
      exact ⟨(l, r) :: values, .cons ⟨encodeRecord_eq_ok.mp hl, encodeRecord_eq_ok.mp hr⟩ hvalues,
        by rw [← h, List.flatMap_cons]⟩
    · rintro ⟨vs, hvs, rfl⟩
      cases hvs with | cons hv hvalues
      unfold serializeNodes
      rw [encodeRecord_eq_ok.mpr hv.1, encodeRecord_eq_ok.mpr hv.2,
        serializeNodes_eq_ok.mpr ⟨_, hvalues, rfl⟩]
      rfl

theorem exists_packs {nodes : List Node} (h : ∀ n ∈ nodes, ∀ rec, rec = n.left ∨ rec = n.right →
      ∃ v, recordValue nodeCount idToOffset rec = some v ∧ v < size.maxValue) :
    ∃ values, Packs nodeCount size idToOffset nodes values := by
  induction nodes with
  | nil => exact ⟨[], .nil⟩
  | cons n nodes ih =>
    obtain ⟨values, hvalues⟩ := ih fun n' hn' => h n' (List.mem_cons_of_mem n hn')
    obtain ⟨l, hl⟩ := h n List.mem_cons_self _ (Or.inl rfl)
    obtain ⟨r, hr⟩ := h n List.mem_cons_self _ (Or.inr rfl)
    exact ⟨(l, r) :: values, .cons ⟨hl, hr⟩ hvalues⟩

theorem serializeNodes_ne_panic {nodes : List Node} (h : ∀ n ∈ nodes, ∀ rec,
      rec = n.left ∨ rec = n.right → recordValue nodeCount idToOffset rec ≠ none) :
    serializeNodes nodeCount size idToOffset nodes ≠ .error .panic := by
  induction nodes with
  | nil => simp [serializeNodes]
  | cons n nodes ih =>
    have hl := encodeRecord_ne_panic size (h n List.mem_cons_self _ (Or.inl rfl))
    have hr := encodeRecord_ne_panic size (h n List.mem_cons_self _ (Or.inr rfl))
    have hn := ih fun n' hn' => h n' (List.mem_cons_of_mem n hn')
    unfold serializeNodes
    rcases hl' : encodeRecord n.left nodeCount size idToOffset with e | l
    · rw [hl'] at hl
      simpa [bind, Except.bind] using hl
    rcases hr' : encodeRecord n.right nodeCount size idToOffset with e | r
    · rw [hr'] at hr
      simpa [bind, Except.bind] using hr
    rcases hn' : serializeNodes nodeCount size idToOffset nodes with e | out
    · rw [hn'] at hn
      simpa [bind, Except.bind] using hn
    · simp [bind, Except.bind]

end Encode

section Pair

theorem length_writeRecordPair (left right : ℕ) (size : RecordSize) :
    (writeRecordPair left right size).length = size.nodeBytes := by
  cases size <;> rfl

theorem toNat_middle : ∀ a b : Fin 16,
    ((UInt8.ofNat a.val <<< 4) ||| UInt8.ofNat b.val).toNat = a.val * 16 + b.val := by
  decide

/-- The byte with the high bits of both records. -/
theorem toNat_middle_of_lt {left right : ℕ} (hl : left < 2 ^ 28) (hr : right < 2 ^ 28) :
    ((UInt8.ofNat ((left >>> 24) &&& 0xF) <<< 4) |||
      UInt8.ofNat ((right >>> 24) &&& 0xF)).toNat = left / 2 ^ 24 * 16 + right / 2 ^ 24 := by
  have hmask : ∀ n, n < 2 ^ 28 → (n >>> 24) &&& 0xF = n / 2 ^ 24 := by
    intro n hn
    rw [Nat.shiftRight_eq_div_pow, show (0xF : ℕ) = 2 ^ 4 - 1 from rfl,
      Nat.and_two_pow_sub_one_eq_mod, Nat.mod_eq_of_lt (by omega)]
  rw [hmask left hl, hmask right hr]
  exact toNat_middle ⟨left / 2 ^ 24, by omega⟩ ⟨right / 2 ^ 24, by omega⟩

theorem readBe_beBytes_mod (k n : ℕ) (rest : List UInt8) :
    readBe k (beBytes k n ++ rest) = some (n % 256 ^ k, rest) := by
  have h := Bytes.readBe_append (beBytes k n) rest
  rwa [length_beBytes, beNat_beBytes] at h

variable {tree rest : List UInt8} {left right i : ℕ}

/-- A reader finds the two records of a node where the node's bytes are. -/
theorem readRecord_of_drop {size : RecordSize}
    (h : tree.drop (size.nodeBytes * i) = writeRecordPair left right size ++ rest)
    (hl : left < size.maxValue) (hr : right < size.maxValue) (b : Bool) :
    Mmdb.readRecord tree size.bits i b = some (if b then right else left) := by
  cases size with
  | bits24 =>
    have h : tree.drop (6 * i) = beBytes 3 left ++ (beBytes 3 right ++ rest) := h
    simp only [RecordSize.maxValue] at hl hr
    unfold Mmdb.readRecord
    rw [RecordSize.bits, if_pos rfl, ← List.drop_drop, h]
    cases b
    · simp [readBe_beBytes (k := 3) (by omega : left < 256 ^ 3)]
    · rw [if_pos rfl, if_pos rfl, List.drop_left' (length_beBytes 3 left),
        readBe_beBytes (by omega)]
      rfl
  | bits28 =>
    have h : tree.drop (7 * i) = beBytes 3 left ++ (((UInt8.ofNat ((left >>> 24) &&& 0xF) <<< 4) |||
        UInt8.ofNat ((right >>> 24) &&& 0xF)) :: (beBytes 3 right ++ rest)) := h
    simp only [RecordSize.maxValue] at hl hr
    have hmid : readBe 1 (tree.drop (7 * i + 3)) =
        some (left / 2 ^ 24 * 16 + right / 2 ^ 24, beBytes 3 right ++ rest) := by
      rw [← List.drop_drop, h, List.drop_left' (length_beBytes 3 left),
        ← toNat_middle_of_lt hl hr]
      have := Bytes.readBe_append [(UInt8.ofNat ((left >>> 24) &&& 0xF) <<< 4) |||
        UInt8.ofNat ((right >>> 24) &&& 0xF)] (beBytes 3 right ++ rest)
      simpa [Bytes.beNat_cons] using this
    unfold Mmdb.readRecord
    rw [RecordSize.bits, if_neg (by decide), if_pos rfl, hmid]
    cases b
    · obtain ⟨more, hlow⟩ : ∃ more, readBe 3 (tree.drop (7 * i)) = some (left % 256 ^ 3, more) :=
        ⟨_, by rw [h]; exact readBe_beBytes_mod 3 left _⟩
      simp only [Option.bind_eq_bind, Option.bind_some, Bool.false_eq_true, if_false, Nat.add_zero,
        hlow, Option.some.injEq]
      omega
    · have hlow : readBe 3 (tree.drop (7 * i + 4)) = some (right % 256 ^ 3, rest) := by
        rw [← List.drop_drop, h, List.drop_append, length_beBytes,
          List.drop_eq_nil_of_le (by rw [length_beBytes]; omega), List.nil_append]
        exact readBe_beBytes_mod 3 right rest
      simp only [Option.bind_eq_bind, Option.bind_some, if_true, hlow, Option.some.injEq]
      omega
  | bits32 =>
    have h : tree.drop (8 * i) = beBytes 4 left ++ (beBytes 4 right ++ rest) := h
    simp only [RecordSize.maxValue] at hl hr
    unfold Mmdb.readRecord
    rw [RecordSize.bits, if_neg (by decide), if_neg (by decide), if_pos rfl, ← List.drop_drop, h]
    cases b
    · simp [readBe_beBytes (k := 4) (by omega : left < 256 ^ 4)]
    · rw [if_pos rfl, if_pos rfl, List.drop_left' (length_beBytes 4 left),
        readBe_beBytes (by omega)]
      rfl

theorem drop_flatMap {α : Type} {f : α → List UInt8} {k : ℕ} (hf : ∀ x, (f x).length = k) :
    ∀ {l : List α} {i : ℕ} {x : α}, l[i]? = some x →
      ∃ rest, (l.flatMap f).drop (k * i) = f x ++ rest
  | y :: l, 0, x, h => by
    rw [List.getElem?_cons_zero, Option.some.injEq] at h
    exact ⟨l.flatMap f, by rw [h, Nat.mul_zero, List.drop_zero, List.flatMap_cons]⟩
  | y :: l, i + 1, x, h => by
    obtain ⟨rest, hrest⟩ := drop_flatMap hf (l := l) (i := i) h
    refine ⟨rest, ?_⟩
    rw [List.flatMap_cons, Nat.mul_succ, Nat.add_comm, ← List.drop_drop, List.drop_left' (hf y),
      hrest]

end Pair

end Tree

end MmdbWriter
