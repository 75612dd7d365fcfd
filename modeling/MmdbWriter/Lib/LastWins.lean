import Mathlib

/-!
# The map of a list of entries

Entries given one after the other make a map in which each key has the last value given for it. The
map is written as the list of its entries, ascending in the keys, and such a list is determined by what
a lookup finds in it.
-/

namespace LastWins

variable {κ ν : Type} [LinearOrder κ]

/-- Lists that write maps: the keys ascend. -/
def Ascending (m : List (κ × ν)) : Prop := m.Pairwise fun a b => a.1 < b.1

/-- The last value given for a key. -/
def lastValue (k : κ) (l : List (κ × ν)) : Option ν := l.reverse.lookup k

/-- The map of the entries. -/
def lastWins (l : List (κ × ν)) : List (κ × ν) :=
  ((l.map Prod.fst).toFinset.sort (· ≤ ·)).filterMap fun k => (lastValue k l).map fun v => (k, v)

@[simp] theorem lastValue_nil (k : κ) : lastValue k ([] : List (κ × ν)) = none := rfl

theorem lastValue_append_singleton (k k' : κ) (v : ν) (l : List (κ × ν)) :
    lastValue k (l ++ [(k', v)]) = if k = k' then some v else lastValue k l := by
  unfold lastValue
  rw [List.reverse_append, List.reverse_singleton, List.singleton_append, List.lookup_cons]
  by_cases h : k = k'
  · simp [h]
  · simp [h, beq_eq_false_iff_ne.mpr h]

theorem lastValue_isSome {k : κ} {l : List (κ × ν)} :
    (lastValue k l).isSome ↔ k ∈ l.map Prod.fst := by
  induction l using List.reverseRecOn with
  | nil => simp
  | append_singleton l e ih =>
    obtain ⟨k', v⟩ := e
    rw [lastValue_append_singleton, List.map_append, List.mem_append, ← ih]
    by_cases h : k = k' <;> simp [h]

theorem Ascending.mem_iff {m : List (κ × ν)} (h : Ascending m) (k : κ) (v : ν) :
    (k, v) ∈ m ↔ m.lookup k = some v := by
  induction m with
  | nil => simp
  | cons e m ih =>
    obtain ⟨k', v'⟩ := e
    obtain ⟨hlt, hm⟩ := List.pairwise_cons.mp h
    rw [List.mem_cons, ih hm, List.lookup_cons, Prod.mk.injEq]
    by_cases hk : k = k'
    · subst hk
      have hno : m.lookup k ≠ some v := fun hv => lt_irrefl k (hlt (k, v) ((ih hm).mpr hv))
      simp [hno, eq_comm]
    · simp [hk, beq_eq_false_iff_ne.mpr hk]

/-- Maps in which every lookup finds the same are the same. -/
theorem Ascending.ext {m m' : List (κ × ν)} (h : Ascending m) (h' : Ascending m')
    (hget : ∀ k, m.lookup k = m'.lookup k) : m = m' := by
  have hnodup : ∀ {m : List (κ × ν)}, Ascending m → m.Nodup := by
    intro m hm
    unfold Ascending at hm
    refine hm.imp ?_
    rintro a b hlt rfl
    exact lt_irrefl _ hlt
  have hperm : m.Perm m' := by
    rw [List.perm_ext_iff_of_nodup (hnodup h) (hnodup h')]
    rintro ⟨k, v⟩
    rw [h.mem_iff, h'.mem_iff, hget]
  exact hperm.eq_of_pairwise (fun a b _ _ hab hba => absurd (hab.trans hba) (lt_irrefl _)) h h'

theorem ascending_lastWins (l : List (κ × ν)) : Ascending (lastWins l) := by
  unfold Ascending lastWins
  rw [List.pairwise_filterMap]
  refine (Finset.sortedLT_sort _).pairwise.imp fun {a b} hab e he e' he' => ?_
  simp only [Option.map_eq_some_iff] at he he'
  obtain ⟨v, -, rfl⟩ := he
  obtain ⟨v', -, rfl⟩ := he'
  exact hab

/-- Each key has its last value. -/
theorem lookup_lastWins (l : List (κ × ν)) (k : κ) : (lastWins l).lookup k = lastValue k l := by
  have hmem : ∀ v, (lastWins l).lookup k = some v ↔ lastValue k l = some v := by
    intro v
    rw [← (ascending_lastWins l).mem_iff, lastWins, List.mem_filterMap]
    constructor
    · rintro ⟨k', -, hv⟩
      simp only [Option.map_eq_some_iff, Prod.mk.injEq] at hv
      obtain ⟨v', hv', rfl, rfl⟩ := hv
      exact hv'
    · intro hv
      refine ⟨k, ?_, by simp [hv]⟩
      rw [Finset.mem_sort, List.mem_toFinset, ← lastValue_isSome, hv]
      rfl
  exact Option.ext hmem

end LastWins
