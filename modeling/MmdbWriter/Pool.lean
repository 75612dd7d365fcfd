import MmdbWriter.Lib.Exec
import MmdbWriter.Value

/-!
# The interning pool

Values by small ids. The index is a `HashMap` kept as the list of its entries, the newest first; the
pool carries that the index knows every value at its place and no other.
-/

namespace MmdbWriter

/-- A handle to an interned value, a `u32`. -/
abbrev ValueId := ℕ

/-- Deduplicating store of values. -/
structure ValuePool where
  values : List Value
  index : List (Value × ValueId)
  lookup_index : ∀ v id, index.lookup v = some id ↔ values[id]? = some v

namespace ValuePool

def new : ValuePool := ⟨[], [], by simp⟩

theorem lookup_index_append {values : List Value} {index : List (Value × ValueId)}
    (h : ∀ v id, index.lookup v = some id ↔ values[id]? = some v) {value : Value}
    (hv : index.lookup value = none) (v : Value) (id : ValueId) :
    ((value, values.length) :: index).lookup v = some id ↔
      (values ++ [value])[id]? = some v := by
  rw [List.lookup_cons, List.getElem?_append]
  by_cases hvv : v = value
  · subst hvv
    have hnot : ∀ id : ℕ, values[id]? ≠ some v := by
      intro id hid
      rw [(h v id).mpr hid] at hv
      simp at hv
    simp only [BEq.rfl, Option.some.injEq]
    constructor
    · rintro rfl
      simp
    · intro hid
      split_ifs at hid with hlt
      · exact absurd hid (hnot id)
      · have hlt' := (List.getElem?_eq_some_iff.mp hid).1
        simp only [List.length_singleton] at hlt'
        omega
  · have hbeq : (v == value) = false := by simpa using hvv
    rw [hbeq]
    simp only []
    rw [h]
    split_ifs with hlt
    · rfl
    · rw [List.getElem?_eq_none (by omega)]
      rcases Nat.eq_zero_or_pos (id - values.length) with h0 | h0
      · rw [h0]
        simp [Ne.symm hvv]
      · rw [List.getElem?_eq_none (by simp; omega)]

/-- `ValuePool::intern`: the id of the value, a new one unless it is known already. -/
def intern (value : Value) : Exec Fault ValuePool ValueId := fun pool =>
  match h : pool.index.lookup value with
  | some id => (.ok id, pool)
  | none =>
    if pool.values.length ≤ u32Max then
      (.ok pool.values.length,
        { values := pool.values ++ [value]
          index := (value, pool.values.length) :: pool.index
          lookup_index := lookup_index_append pool.lookup_index h })
    else (.error .panic, pool)

/-- `ValuePool::get`. -/
def get (pool : ValuePool) (id : ValueId) : Except Fault Value :=
  match pool.values[id]? with
  | some v => .ok v
  | none => .error .panic

/-- The later pool has the earlier one's values at their ids. -/
def Le (pool pool' : ValuePool) : Prop := pool.values <+: pool'.values

theorem Le.refl (pool : ValuePool) : pool.Le pool := List.prefix_refl _

theorem Le.trans {p p' p'' : ValuePool} (h : p.Le p') (h' : p'.Le p'') : p.Le p'' :=
  List.IsPrefix.trans h h'

theorem Le.getElem? {p p' : ValuePool} (h : p.Le p') {id : ValueId} {v : Value}
    (hv : p.values[id]? = some v) : p'.values[id]? = some v := by
  obtain ⟨s, hs⟩ := h
  have hlt := (List.getElem?_eq_some_iff.mp hv).1
  rw [← hs, List.getElem?_append_left hlt, hv]

theorem id_unique (pool : ValuePool) {i j : ValueId} {v : Value}
    (hi : pool.values[i]? = some v) (hj : pool.values[j]? = some v) : i = j := by
  rw [← pool.lookup_index] at hi hj
  rw [hi] at hj
  exact Option.some.inj hj

/-- What `intern` does: the pool grows by at most the value and the id is the value's, or the pool
is full. -/
theorem intern_cases (value : Value) (pool : ValuePool) :
    (∃ id pool', intern value pool = (.ok id, pool') ∧ pool.Le pool' ∧
      pool'.values[id]? = some value) ∨
    (intern value pool = (.error .panic, pool) ∧ 2 ^ 32 ≤ pool.values.length) := by
  unfold intern
  split
  · rename_i id h
    exact Or.inl ⟨id, pool, rfl, Le.refl pool, (pool.lookup_index _ _).mp h⟩
  · split_ifs with hlen
    · exact Or.inl ⟨_, _, rfl, List.prefix_append _ _, by simp⟩
    · exact Or.inr ⟨rfl, by simp only [u32Max] at hlen; omega⟩

end ValuePool

end MmdbWriter
