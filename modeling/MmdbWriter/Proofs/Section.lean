import MmdbWriter.Proofs.Encoding

/-!
# What lies in a data section

`Inline` says that the encoding of a value lies at a place of a section. A nested value lies in it, or
is a pointer to the encoding of the same value, complete before the pointer. The relation keeps the
fields of the encoding, as a scan of the section lists them.
-/

namespace MmdbWriter

open Mmdb (Field)

/-- The bytes from `s` to `e` are `x`. -/
def Slice (data : List UInt8) (s e : ℕ) (x : List UInt8) : Prop :=
  ∃ a c, data = a ++ x ++ c ∧ a.length = s ∧ e = s + x.length

/-- The encoding of a value that holds no other. -/
def scalarEncoding : Value → Option (List UInt8)
  | .string s => some (blob .utf8 (strBytes s))
  | .double bits => some (controlByte .double 8 ++ beBytes 8 bits.toNat)
  | .bytes b => some (blob .bytes b)
  | .u16 n => some (uintEncoding .uint16 n.toNat 2)
  | .u32 n => some (uintEncoding .uint32 n.toNat 4)
  | .i32 n => some (extendedEncoding .int32 (encodeI32Trimmed n))
  | .u64 n => some (extendedEncoding .uint64 (encodeUintTrimmed n.toNat 8))
  | .u128 n => some (extendedEncoding .uint128 (encodeUintTrimmed n.toNat 16))
  | .bool b => some (extendedHeader .bool b.toNat)
  | .float bits => some (extendedHeader .float 4 ++ beBytes 4 bits.toNat)
  | .map _ | .array _ => none

/-- Induction over a value, its items and its entries. -/
theorem Value.induct {P : Value → Prop} {Q : List Value → Prop}
    {R : List (String × Value) → Prop} (scalar : ∀ v x, scalarEncoding v = some x → P v)
    (map : ∀ m, R m → P (.map m)) (array : ∀ items, Q items → P (.array items)) (nil : Q [])
    (cons : ∀ v items, P v → Q items → Q (v :: items)) (nil' : R [])
    (cons' : ∀ k v m, P v → R m → R ((k, v) :: m)) :
    (∀ v, P v) ∧ (∀ items, Q items) ∧ ∀ m, R m :=
  ⟨value, items, entries⟩
where
  value : ∀ v, P v
    | .map m => map m (entries m)
    | .array l => array l (items l)
    | .string _ => scalar _ _ rfl
    | .double _ => scalar _ _ rfl
    | .bytes _ => scalar _ _ rfl
    | .u16 _ => scalar _ _ rfl
    | .u32 _ => scalar _ _ rfl
    | .i32 _ => scalar _ _ rfl
    | .u64 _ => scalar _ _ rfl
    | .u128 _ => scalar _ _ rfl
    | .bool _ => scalar _ _ rfl
    | .float _ => scalar _ _ rfl
  items : ∀ l, Q l
    | [] => nil
    | v :: l => cons v l (value v) (items l)
  entries : ∀ m, R m
    | [] => nil'
    | (k, v) :: m => cons' k v m (value v) (entries m)

/-- An encoding without values in it lies at a place. -/
def ScalarAt (data x : List UInt8) (s e : ℕ) (fields : List Field) : Prop :=
  Slice data s e x ∧ fields = [.value s e]

/-- What `P` describes lies at a place, or a pointer to it that comes after it. -/
def SlotOf (data : List UInt8) (P : ℕ → ℕ → List Field → Prop) (s e : ℕ) (fields : List Field) :
    Prop :=
  P s e fields ∨ ∃ t te fields', P t te fields' ∧ t < te ∧ te ≤ s ∧ t < 2 ^ 32 ∧
    Slice data s e (pointerEncoding t) ∧ fields = [.pointer s t]

mutual

/-- The encoding of the value lies from `s` to `e`, with these fields. -/
def Inline (data : List UInt8) : Value → ℕ → ℕ → List Field → Prop
  | .map m, s, e, fields => ∃ h inner, Slice data s h (controlByte .map m.length) ∧
      EntriesAt data m h e inner ∧ fields = .value s e :: inner
  | .array items, s, e, fields => ∃ h inner, Slice data s h (extendedHeader .array items.length) ∧
      ItemsAt data items h e inner ∧ fields = .value s e :: inner
  | v, s, e, fields => ∃ x, scalarEncoding v = some x ∧ ScalarAt data x s e fields

/-- The items lie one after the other. -/
def ItemsAt (data : List UInt8) : List Value → ℕ → ℕ → List Field → Prop
  | [], s, e, fields => s = e ∧ fields = []
  | v :: items, s, e, fields => ∃ m f₁ f₂, SlotOf data (Inline data v) s m f₁ ∧
      ItemsAt data items m e f₂ ∧ fields = f₁ ++ f₂

/-- The keys and their values lie one after the other. -/
def EntriesAt (data : List UInt8) : List (String × Value) → ℕ → ℕ → List Field → Prop
  | [], s, e, fields => s = e ∧ fields = []
  | (k, v) :: entries, s, e, fields => ∃ m m' f₁ f₂ f₃,
      SlotOf data (ScalarAt data (blob .utf8 (strBytes k))) s m f₁ ∧
      SlotOf data (Inline data v) m m' f₂ ∧ EntriesAt data entries m' e f₃ ∧
      fields = f₁ ++ (f₂ ++ f₃)

end

section Slice

variable {data : List UInt8} {s e : ℕ} {x : List UInt8}

theorem Slice.drop (h : Slice data s e x) : data.drop s = x ++ data.drop e := by
  obtain ⟨a, c, rfl, rfl, rfl⟩ := h
  rw [List.append_assoc, List.drop_left, ← List.append_assoc, ← List.length_append, List.drop_left]

theorem Slice.append (h : Slice data s e x) (more : List UInt8) : Slice (data ++ more) s e x := by
  obtain ⟨a, c, rfl, rfl, rfl⟩ := h
  exact ⟨a, c ++ more, by simp, rfl, rfl⟩

theorem Slice.le (h : Slice data s e x) : e = s + x.length ∧ e ≤ data.length := by
  obtain ⟨a, c, rfl, rfl, rfl⟩ := h
  simp

theorem slice_append (data x : List UInt8) : Slice (data ++ x) data.length (data ++ x).length x :=
  ⟨data, [], by simp, rfl, by simp⟩

end Slice

section Mono

variable {data : List UInt8}

theorem SlotOf.append {P Q : ℕ → ℕ → List Field → Prop} {s e : ℕ} {fields : List Field}
    (h : SlotOf data P s e fields) (more : List UInt8)
    (hPQ : ∀ {s e fields}, P s e fields → Q s e fields) : SlotOf (data ++ more) Q s e fields := by
  rcases h with h | ⟨t, te, fields', hP, htt, hte, ht, hs, hf⟩
  · exact Or.inl (hPQ h)
  · exact Or.inr ⟨t, te, fields', hPQ hP, htt, hte, ht, hs.append more, hf⟩

theorem ScalarAt.append {x : List UInt8} {s e : ℕ} {fields : List Field}
    (h : ScalarAt data x s e fields) (more : List UInt8) : ScalarAt (data ++ more) x s e fields :=
  ⟨h.1.append more, h.2⟩

theorem inline_scalar {v : Value} {x : List UInt8} (hv : scalarEncoding v = some x) {s e : ℕ}
    {fields : List Field} : Inline data v s e fields ↔ ScalarAt data x s e fields := by
  cases v <;> simp only [scalarEncoding, Option.some.injEq, reduceCtorEq] at hv <;>
    simp [Inline, scalarEncoding, hv]

/-- What lies in a section still does when more is written after it. -/
theorem inline_append (more : List UInt8) :
    (∀ (v : Value) (s e : ℕ) (fields : List Field), Inline data v s e fields →
      Inline (data ++ more) v s e fields) ∧
    (∀ (items : List Value) (s e : ℕ) (fields : List Field), ItemsAt data items s e fields →
      ItemsAt (data ++ more) items s e fields) ∧
    ∀ (entries : List (String × Value)) (s e : ℕ) (fields : List Field),
      EntriesAt data entries s e fields → EntriesAt (data ++ more) entries s e fields := by
  refine Value.induct ?_ ?_ ?_ ?_ ?_ ?_ ?_
  · intro v x hx s e fields h
    rw [inline_scalar hx] at h ⊢
    exact h.append more
  · intro m ih s e fields h
    rw [Inline] at h ⊢
    obtain ⟨h', inner, hs, he, hf⟩ := h
    exact ⟨h', inner, hs.append more, ih _ _ _ he, hf⟩
  · intro items ih s e fields h
    rw [Inline] at h ⊢
    obtain ⟨h', inner, hs, he, hf⟩ := h
    exact ⟨h', inner, hs.append more, ih _ _ _ he, hf⟩
  · intro s e fields h
    rw [ItemsAt] at h ⊢
    exact h
  · intro v items ih ih' s e fields h
    rw [ItemsAt] at h ⊢
    obtain ⟨m, f₁, f₂, h₁, h₂, hf⟩ := h
    exact ⟨m, f₁, f₂, h₁.append more (ih _ _ _), ih' _ _ _ h₂, hf⟩
  · intro s e fields h
    rw [EntriesAt] at h ⊢
    exact h
  · intro k v entries ih ih' s e fields h
    rw [EntriesAt] at h ⊢
    obtain ⟨m, m', f₁, f₂, f₃, h₁, h₂, h₃, hf⟩ := h
    exact ⟨m, m', f₁, f₂, f₃, h₁.append more fun h => h.append more,
      h₂.append more (ih _ _ _), ih' _ _ _ h₃, hf⟩

end Mono

end MmdbWriter
