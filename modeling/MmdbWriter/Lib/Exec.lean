import Mathlib

/-!
# Calls on a state that can stop

A call reads and changes a state and ends with a result or stops at a fault. Unlike a computation
that is thrown away when it fails, what it did to the state before the fault stands.
-/

/-- A call on a state `σ`: its result or the fault it stopped at, and the state it leaves. -/
def Exec (ε σ α : Type) : Type := σ → Except ε α × σ

namespace Exec

variable {ε σ τ α β : Type}

instance : Monad (Exec ε σ) where
  pure a := fun s => (.ok a, s)
  bind x f := fun s => match x s with
    | (.ok a, s') => f a s'
    | (.error e, s') => (.error e, s')

/-- A value computed without the state. -/
def lift (x : Except ε α) : Exec ε σ α := fun s => (x, s)

/-- The state as it stands. -/
def read : Exec ε σ σ := fun s => (.ok s, s)

/-- Stop at the fault `e`. -/
def stop (e : ε) : Exec ε σ α := fun s => (.error e, s)

/-- A call on the first of two states. -/
def onFst (x : Exec ε σ α) : Exec ε (σ × τ) α := fun s =>
  ((x s.1).1, ((x s.1).2, s.2))

/-- A call on the second of two states. -/
def onSnd (x : Exec ε τ α) : Exec ε (σ × τ) α := fun s =>
  ((x s.2).1, (s.1, (x s.2).2))

@[simp] theorem pure_apply (a : α) (s : σ) : (pure a : Exec ε σ α) s = (.ok a, s) := rfl

@[simp] theorem lift_apply (x : Except ε α) (s : σ) : (lift x : Exec ε σ α) s = (x, s) := rfl

@[simp] theorem read_apply (s : σ) : (read : Exec ε σ σ) s = (.ok s, s) := rfl

@[simp] theorem stop_apply (e : ε) (s : σ) : (stop e : Exec ε σ α) s = (.error e, s) := rfl

theorem onFst_apply (x : Exec ε σ α) (s : σ) (t : τ) :
    (onFst x : Exec ε (σ × τ) α) (s, t) = ((x s).1, ((x s).2, t)) := rfl

theorem onSnd_apply (x : Exec ε τ α) (s : σ) (t : τ) :
    (onSnd x : Exec ε (σ × τ) α) (s, t) = ((x t).1, (s, (x t).2)) := rfl

theorem bind_apply (x : Exec ε σ α) (f : α → Exec ε σ β) (s : σ) :
    (x >>= f) s = match x s with
      | (.ok a, s') => f a s'
      | (.error e, s') => (.error e, s') := rfl

theorem bind_ok {x : Exec ε σ α} {s s' : σ} {a : α} (h : x s = (.ok a, s'))
    (f : α → Exec ε σ β) : (x >>= f) s = f a s' := by
  simp only [bind_apply, h]

theorem bind_error {x : Exec ε σ α} {s s' : σ} {e : ε} (h : x s = (.error e, s'))
    (f : α → Exec ε σ β) : (x >>= f) s = (.error e, s') := by
  simp only [bind_apply, h]

theorem bind_pure_unit (x : Exec ε σ Unit) (s : σ) : (x >>= fun _ => pure ()) s = x s := by
  rw [bind_apply]
  rcases x s with ⟨_ | _, s'⟩ <;> rfl

theorem bind_eq_ok {x : Exec ε σ α} {f : α → Exec ε σ β} {s s'' : σ} {b : β}
    (h : (x >>= f) s = (.ok b, s'')) : ∃ a s', x s = (.ok a, s') ∧ f a s' = (.ok b, s'') := by
  rcases hx : x s with ⟨_ | a, s'⟩
  · rw [bind_error hx] at h
    simp at h
  · exact ⟨a, s', rfl, by rwa [bind_ok hx] at h⟩

theorem bind_eq_error {x : Exec ε σ α} {f : α → Exec ε σ β} {s s'' : σ} {e : ε}
    (h : (x >>= f) s = (.error e, s'')) :
    x s = (.error e, s'') ∨ ∃ a s', x s = (.ok a, s') ∧ f a s' = (.error e, s'') := by
  rcases hx : x s with ⟨e' | a, s'⟩
  · rw [bind_error hx] at h
    simp only [Prod.mk.injEq, Except.error.injEq] at h
    exact Or.inl (by rw [h.1, h.2])
  · exact Or.inr ⟨a, s', rfl, by rwa [bind_ok hx] at h⟩

/-- The call leaves a state with the property where it finds one, whichever way it ends. -/
def Preserves (P : σ → Prop) (x : Exec ε σ α) : Prop := ∀ s, P s → P (x s).2

section Preserves

variable {P : σ → Prop}

theorem preserves_pure (a : α) : Preserves P (pure a : Exec ε σ α) := fun _ h => h

theorem preserves_lift (x : Except ε α) : Preserves P (lift x : Exec ε σ α) := fun _ h => h

theorem preserves_read : Preserves P (read : Exec ε σ σ) := fun _ h => h

theorem preserves_stop (e : ε) : Preserves P (stop e : Exec ε σ α) := fun _ h => h

theorem Preserves.bind {x : Exec ε σ α} {f : α → Exec ε σ β} (hx : Preserves P x)
    (hf : ∀ a, Preserves P (f a)) : Preserves P (x >>= f) := by
  intro s hs
  have h := hx s hs
  rcases hxs : x s with ⟨_ | a, s'⟩ <;> rw [hxs] at h
  · rw [bind_error hxs]
    exact h
  · rw [bind_ok hxs]
    exact hf a s' h

theorem Preserves.onFst {x : Exec ε σ α} (hx : Preserves P x) :
    Preserves (fun s : σ × τ => P s.1) (x.onFst) := fun s hs => hx s.1 hs

theorem preserves_onSnd (x : Exec ε τ α) :
    Preserves (fun s : σ × τ => P s.1) (x.onSnd) := fun _ hs => hs

end Preserves

/-- The call lets a measure of the state grow by `k` at most, whichever way it ends. -/
def GrowsBy (size : σ → ℕ) (k : ℕ) (x : Exec ε σ α) : Prop := ∀ s, size (x s).2 ≤ size s + k

section GrowsBy

variable {size : σ → ℕ} {k k' : ℕ}

theorem growsBy_pure (a : α) : GrowsBy size 0 (pure a : Exec ε σ α) := fun _ => le_rfl

theorem growsBy_lift (x : Except ε α) : GrowsBy size 0 (lift x : Exec ε σ α) := fun _ => le_rfl

theorem growsBy_stop (e : ε) : GrowsBy size 0 (stop e : Exec ε σ α) := fun _ => le_rfl

theorem GrowsBy.mono {x : Exec ε σ α} (hx : GrowsBy size k x) (hk : k ≤ k') : GrowsBy size k' x :=
  fun s => (hx s).trans (Nat.add_le_add_left hk _)

theorem GrowsBy.bind {x : Exec ε σ α} {f : α → Exec ε σ β} (hx : GrowsBy size k x)
    (hf : ∀ a, GrowsBy size k' (f a)) : GrowsBy size (k + k') (x >>= f) := by
  intro s
  have h := hx s
  rcases hxs : x s with ⟨_ | a, s'⟩ <;> rw [hxs] at h
  · rw [bind_error hxs]
    exact h.trans (by omega)
  · rw [bind_ok hxs]
    exact (hf a s').trans (by dsimp only at h; omega)

theorem GrowsBy.seq {x : Exec ε σ α} {f : α → Exec ε σ β} (hx : GrowsBy size 0 x)
    (hf : ∀ a, GrowsBy size k (f a)) : GrowsBy size k (x >>= f) :=
  (hx.bind hf).mono (by omega)

end GrowsBy

/-- The call adds `k` to a measure of the state, or stops having added less: with `short e` left to add
at the least, where it stops at the fault `e`. -/
structure Spends (size : σ → ℕ) (short : ε → ℕ) (k : ℕ) (x : Exec ε σ α) (s : σ) : Prop where
  ok : ∀ {a s'}, x s = (.ok a, s') → size s' = size s + k
  error : ∀ {e s'}, x s = (.error e, s') → size s' + short e ≤ size s + k

section Spends

variable {size : σ → ℕ} {short : ε → ℕ} {k k' : ℕ} {s : σ}

theorem spends_pure (a : α) : Spends size short 0 (pure a : Exec ε σ α) s where
  ok h := by cases h; rfl
  error h := by cases h

theorem spends_stop {e : ε} (he : short e ≤ k) : Spends size short k (stop e : Exec ε σ α) s where
  ok h := by cases h
  error h := by cases h; exact Nat.add_le_add_left he _

/-- A call that leaves the measure as it is and does not stop for want of room. -/
theorem spends_zero {x : Exec ε σ α} (hsize : size (x s).2 = size s)
    (hshort : ∀ e, (x s).1 = .error e → short e = 0) : Spends size short 0 x s where
  ok h := by rw [h] at hsize; exact hsize
  error {e s'} h := by
    have he := hshort e (by rw [h])
    rw [h] at hsize
    rw [he]
    exact hsize.le

theorem Spends.congr {x y : Exec ε σ α} (hx : Spends size short k x s) (h : y s = x s) :
    Spends size short k y s where
  ok h' := hx.ok (h ▸ h')
  error h' := hx.error (h ▸ h')

theorem Spends.bind {x : Exec ε σ α} {f : α → Exec ε σ β} (hx : Spends size short k x s)
    (hf : ∀ a s', x s = (.ok a, s') → Spends size short k' (f a) s') :
    Spends size short (k + k') (x >>= f) s := by
  rcases hxs : x s with ⟨e | a, s'⟩
  · have herr := hx.error hxs
    constructor
    · intro b s'' h
      rw [bind_error hxs] at h
      cases h
    · intro e' s'' h
      rw [bind_error hxs] at h
      cases h
      omega
  · have hok := hx.ok hxs
    have hrest := hf a s' hxs
    constructor
    · intro b s'' h
      rw [bind_ok hxs] at h
      have := hrest.ok h
      omega
    · intro e' s'' h
      rw [bind_ok hxs] at h
      have := hrest.error h
      omega

theorem Spends.seq {x : Exec ε σ α} {f : α → Exec ε σ β} (hx : Spends size short 0 x s)
    (hf : ∀ a s', x s = (.ok a, s') → Spends size short k (f a) s') :
    Spends size short k (x >>= f) s := by
  rw [← Nat.zero_add k]
  exact hx.bind hf

theorem Spends.before {x : Exec ε σ α} {f : α → Exec ε σ β} (hx : Spends size short k x s)
    (hf : ∀ a s', Spends size short 0 (f a) s') : Spends size short k (x >>= f) s :=
  hx.bind fun a s' _ => hf a s'

end Spends

end Exec
