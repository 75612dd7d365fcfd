import Mathlib

/-!
# Operations made again

An operation that is made again, directly or after others, may leave nothing of what it did before. A
run of such operations leaves nothing of any of them made earlier, in whatever order and however often.
-/

namespace Repeats

variable {ι α : Type} (op : ι → α → α) (P : α → Prop) (S : ι → Prop)

/-- The run of the operations of a list. -/
def runAll (is : List ι) (a : α) : α := is.foldl (fun a i => op i a) a

/-- The operations of `S` keep `P`. -/
def Keeps : Prop := ∀ i, S i → ∀ a, P a → P (op i a)

/-- Made again, at once or after one operation of `S`, the operation leaves nothing of what it did. -/
structure Absorbs (i : ι) : Prop where
  self : ∀ a, P a → op i (op i a) = op i a
  between : ∀ j, S j → ∀ a, P a → op i (op j (op i a)) = op i (op j a)

variable {op P S}

@[simp] theorem runAll_nil (a : α) : runAll op [] a = a := rfl

@[simp] theorem runAll_cons (i : ι) (is : List ι) (a : α) :
    runAll op (i :: is) a = runAll op is (op i a) := rfl

theorem runAll_append (is js : List ι) (a : α) :
    runAll op (is ++ js) a = runAll op js (runAll op is a) := List.foldl_append ..

theorem Absorbs.congr {i : ι} (h : Absorbs op P S i) (hk : Keeps op P S) :
    ∀ {js : List ι}, (∀ j ∈ js, S j) → ∀ {a b : α}, P a → P b → op i a = op i b →
      op i (runAll op js a) = op i (runAll op js b)
  | [], _, _, _, _, _, hab => hab
  | j :: js, hjs, a, b, ha, hb, hab => by
    have hj := hjs j List.mem_cons_self
    have hstep : op i (op j a) = op i (op j b) := by
      rw [← h.between j hj a ha, hab, h.between j hj b hb]
    exact h.congr hk (fun k hmem => hjs k (List.mem_cons_of_mem j hmem)) (hk j hj a ha) (hk j hj b hb)
      hstep

/-- An operation made again after others leaves nothing of what it did before them. -/
theorem Absorbs.runAll {i : ι} (h : Absorbs op P S i) (hk : Keeps op P S) {js : List ι}
    (hjs : ∀ j ∈ js, S j) (hi : S i) {a : α} (ha : P a) :
    op i (runAll op js (op i a)) = op i (runAll op js a) :=
  h.congr hk hjs (hk i hi a ha) ha (h.self a ha)

section Runs

variable {is others : List ι} (hk : Keeps op P S) (hS : ∀ i ∈ is, S i)
  (his : ∀ i ∈ is, Absorbs op P S i) (hothers : ∀ j ∈ others, S j)
include hk hS his hothers

/-- A run leaves nothing of an operation of its own that is made before it and before others. -/
theorem runAll_of_mem {i : ι} (hi : i ∈ is) {a : α} (ha : P a) :
    runAll op is (runAll op others (op i a)) = runAll op is (runAll op others a) := by
  obtain ⟨before, after, rfl⟩ := List.append_of_mem hi
  have hbefore : ∀ j ∈ others ++ before, S j := fun j hj =>
    (List.mem_append.mp hj).elim (hothers j) fun hj => hS j (List.mem_append_left _ hj)
  have hrun := (his i hi).runAll hk hbefore (hS i hi) ha
  rw [runAll_append, runAll_append] at hrun
  rw [runAll_append, runAll_append, runAll_cons, runAll_cons, hrun]

/-- A run leaves nothing of operations of its own that are made before it and before others, in
whatever order and however often. -/
theorem runAll_of_subset : ∀ {made : List ι}, made ⊆ is → ∀ {a : α}, P a →
    runAll op is (runAll op others (runAll op made a)) = runAll op is (runAll op others a)
  | [], _, _, _ => rfl
  | j :: made, hmade, a, ha => by
    have hj := hmade List.mem_cons_self
    have hrest : made ⊆ is := fun k hmem => hmade (List.mem_cons_of_mem j hmem)
    rw [runAll_cons, runAll_of_subset hrest (hk j (hS j hj) a ha),
      runAll_of_mem hk hS his hothers hj ha]

end Runs

end Repeats
