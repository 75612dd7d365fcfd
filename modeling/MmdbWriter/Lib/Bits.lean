import Mathlib

/-!
# Words as bit strings

The bits of a word from the most significant one down. Two words agree on their first `k` bits
when shifting the other bits out leaves the same (`take_msbs_eq_iff`).
-/

namespace BitVec

variable {w : ℕ}

/-- The bits of a word, the most significant first. -/
def msbs (x : BitVec w) : List Bool := List.ofFn fun i : Fin w => x.getMsbD i

@[simp] theorem length_msbs (x : BitVec w) : x.msbs.length = w := by simp [msbs]

theorem getElem?_msbs (x : BitVec w) (i : ℕ) :
    x.msbs[i]? = if i < w then some (x.getMsbD i) else none := by
  simp only [msbs, List.getElem?_ofFn]
  split <;> rfl

/-- Every bit string of the width is the bits of a word. -/
theorem exists_msbs {p : List Bool} (h : p.length = w) : ∃ x : BitVec w, x.msbs = p := by
  refine ⟨BitVec.ofFnLE fun i => p.getD (w - 1 - i) false, ?_⟩
  apply List.ext_getElem?
  intro i
  rw [getElem?_msbs]
  split_ifs with hi
  · rw [BitVec.getMsbD_eq_getLsbD, List.getElem?_eq_getElem (by omega)]
    simp only [hi, decide_true, Bool.true_and, BitVec.getLsbD_ofFnLE]
    rw [dif_pos (by omega)]
    have : w - 1 - (w - 1 - i) = i := by omega
    simp [this, h, hi]
  · exact (List.getElem?_eq_none (by omega)).symm

/-- Two words have the same first `k` bits exactly when they are equal with the others shifted
out. -/
theorem take_msbs_eq_iff {x y : BitVec w} {k : ℕ} (hk : k ≤ w) :
    x.msbs.take k = y.msbs.take k ↔ x >>> (w - k) = y >>> (w - k) := by
  constructor
  · intro h
    apply BitVec.eq_of_getMsbD_eq
    intro i hi
    simp only [BitVec.getMsbD_ushiftRight]
    by_cases hlt : i < w - k
    · simp [hlt]
    · have := congrArg (·[i - (w - k)]?) h
      have hik : i - (w - k) < k := by omega
      have hiw : i - (w - k) < w := by omega
      simp only [List.getElem?_take, hik, if_true, getElem?_msbs, hiw, Option.some.injEq] at this
      simp [this]
  · intro h
    apply List.ext_getElem?
    intro i
    simp only [List.getElem?_take, getElem?_msbs]
    split_ifs with hik hiw
    · have := congrArg (fun z : BitVec w => z.getMsbD (i + (w - k))) h
      have hlt : i + (w - k) < w := by omega
      simpa [BitVec.getMsbD_ushiftRight, hlt] using this
    · rfl
    · rfl

theorem take_msbs_prefix_iff {x y : BitVec w} {k : ℕ} (hk : k ≤ w) :
    x.msbs.take k <+: y.msbs ↔ x >>> (w - k) = y >>> (w - k) := by
  rw [← take_msbs_eq_iff hk, List.prefix_iff_eq_take]
  simp [hk]

theorem msbs_setWidth {v : ℕ} (x : BitVec w) (h : w ≤ v) :
    (x.setWidth v).msbs = List.replicate (v - w) false ++ x.msbs := by
  apply List.ext_getElem?
  intro i
  rw [getElem?_msbs, List.getElem?_append]
  simp only [List.length_replicate, BitVec.getMsbD_setWidth]
  split_ifs with hv hlt hlt
  · rw [List.getElem?_replicate, if_pos hlt]
    congr 1
    simp; omega
  · rw [getElem?_msbs, if_pos (by omega)]
    congr 1
    have : i + w - v = i - (v - w) := by omega
    simp [this]; omega
  · omega
  · rw [getElem?_msbs, if_neg (by omega)]

theorem msbs_shiftLeft (x : BitVec w) {k : ℕ} (h : k ≤ w) :
    (x <<< k).msbs = x.msbs.drop k ++ List.replicate k false := by
  apply List.ext_getElem?
  intro i
  rw [getElem?_msbs, List.getElem?_append]
  simp only [BitVec.getMsbD_shiftLeft, List.length_drop, length_msbs]
  split_ifs with hv hlt hlt
  · rw [List.getElem?_drop, getElem?_msbs, if_pos (by omega), Nat.add_comm]
  · rw [List.getElem?_replicate, if_pos (by omega)]
    congr 1
    exact BitVec.getMsbD_of_ge _ _ (by omega)
  · omega
  · rw [List.getElem?_replicate, if_neg (by omega)]

end BitVec
