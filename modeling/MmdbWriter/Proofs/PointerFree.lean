import MmdbWriter.Proofs.Fields
import MmdbWriter.Proofs.Pushes

/-!
# Sections with and without pointers

Without pointers the encoding of a value is a function of the value alone. With them it is never
longer: the length in a table entry is at most the length of that function's bytes, and a pointer is
written only where it is shorter still. Two sections that take the same values know the same ones, so
each push encodes in both or in none.
-/

namespace MmdbWriter

open Mmdb (Field Decodes Scans)

namespace Value

mutual

/-- The encoding of a value without pointers. -/
def inlineBytes : Value → List UInt8
  | map m => controlByte .map m.length ++ inlineEntries m
  | array items => extendedHeader .array items.length ++ inlineItems items
  | v => (scalarEncoding v).getD []

def inlineItems : List Value → List UInt8
  | [] => []
  | v :: items => inlineBytes v ++ inlineItems items

def inlineEntries : List (String × Value) → List UInt8
  | [] => []
  | (k, v) :: m => blob .utf8 (strBytes k) ++ (inlineBytes v ++ inlineEntries m)

end

theorem inlineBytes_scalar {v : Value} {x : List UInt8} (hx : scalarEncoding v = some x) :
    inlineBytes v = x := by
  cases v <;> simp only [scalarEncoding, Option.some.injEq, reduceCtorEq] at hx <;>
    simp [inlineBytes, scalarEncoding, hx]

/-- The values and keys in the value satisfy `P`. -/
def Inner (P : Value → Prop) : Value → Prop
  | map m => AllMap P m
  | array items => AllArray P items
  | _ => True

theorem all_iff {P : Value → Prop} {v : Value} : All P v ↔ P v ∧ Inner P v := by
  cases v <;> simp [All, Inner]

theorem inner_scalar {P : Value → Prop} {v : Value} {x : List UInt8}
    (hx : scalarEncoding v = some x) : Inner P v := by
  cases v <;> simp_all [Inner, scalarEncoding]

theorem all_mono {P Q : Value → Prop} (h : ∀ v, P v → Q v) :
    (∀ v, All P v → All Q v) ∧ (∀ items, AllArray P items → AllArray Q items) ∧
      ∀ m, AllMap P m → AllMap Q m := by
  refine Value.induct ?_ ?_ ?_ ?_ ?_ ?_ ?_
  · intro v x hx hv
    rw [all_iff] at hv ⊢
    exact ⟨h v hv.1, inner_scalar hx⟩
  · exact fun m ih hm => ⟨h _ hm.1, ih hm.2⟩
  · exact fun items ih hi => ⟨h _ hi.1, ih hi.2⟩
  · exact fun _ => trivial
  · exact fun v items ih ih' hi => ⟨ih hi.1, ih' hi.2⟩
  · exact fun _ => trivial
  · exact fun k v m ih ih' hm => ⟨h _ hm.1, ih hm.2.1, ih' hm.2.2⟩

theorem Inner.mono {P Q : Value → Prop} (h : ∀ v, P v → Q v) {v : Value} (hv : Inner P v) :
    Inner Q v := by
  cases v with
  | map m => exact (all_mono h).2.2 m hv
  | array items => exact (all_mono h).2.1 items hv
  | _ => trivial

end Value

open Value (SizeOk HeaderOk All AllArray AllMap Inner inlineBytes inlineItems inlineEntries)

section Layout

variable {data : List UInt8}

/-- There is no pointer among the fields. -/
def NoPointer (fields : List Field) : Prop := ∀ pos target, .pointer pos target ∉ fields

theorem NoPointer.append {f g : List Field} (hf : NoPointer f) (hg : NoPointer g) :
    NoPointer (f ++ g) := by
  intro pos target h
  rcases List.mem_append.mp h with h | h
  · exact hf pos target h
  · exact hg pos target h

theorem NoPointer.cons_value {f : List Field} (hf : NoPointer f) (s e : ℕ) :
    NoPointer (.value s e :: f) := by
  intro pos target h
  rcases List.mem_cons.mp h with h | h
  · cases h
  · exact hf pos target h

theorem Slice.split {s e : ℕ} {x y : List UInt8} (h : Slice data s e (x ++ y)) :
    ∃ m, Slice data s m x ∧ Slice data m e y := by
  obtain ⟨a, c, rfl, rfl, rfl⟩ := h
  refine ⟨a.length + x.length, ⟨a, y ++ c, by simp, rfl, rfl⟩, ⟨a ++ x, c, by simp, by simp, ?_⟩⟩
  rw [List.length_append, Nat.add_assoc]

/-- Where the bytes of the encoding without pointers lie, the value does. -/
theorem inline_of_slice :
    (∀ (v : Value) (s e : ℕ), Slice data s e (inlineBytes v) →
      ∃ fields, Inline data v s e fields ∧ NoPointer fields) ∧
    (∀ (items : List Value) (s e : ℕ), Slice data s e (inlineItems items) →
      ∃ fields, ItemsAt data items s e fields ∧ NoPointer fields) ∧
    ∀ (m : List (String × Value)) (s e : ℕ), Slice data s e (inlineEntries m) →
      ∃ fields, EntriesAt data m s e fields ∧ NoPointer fields := by
  have hnil : NoPointer [] := fun _ _ h => by cases h
  have hempty : ∀ {s e : ℕ}, Slice data s e [] → s = e := fun h => by
    have := h.le.1
    simpa using this.symm
  refine Value.induct ?_ ?_ ?_ ?_ ?_ ?_ ?_
  · intro v x hx s e h
    rw [Value.inlineBytes_scalar hx] at h
    exact ⟨_, (inline_scalar hx).mpr ⟨h, rfl⟩, hnil.cons_value s e⟩
  · intro m ih s e h
    rw [inlineBytes] at h
    obtain ⟨h', hheader, hm⟩ := h.split
    obtain ⟨inner, hin, hno⟩ := ih _ _ hm
    refine ⟨.value s e :: inner, ?_, hno.cons_value s e⟩
    rw [Inline]
    exact ⟨h', inner, hheader, hin, rfl⟩
  · intro items ih s e h
    rw [inlineBytes] at h
    obtain ⟨h', hheader, hm⟩ := h.split
    obtain ⟨inner, hin, hno⟩ := ih _ _ hm
    refine ⟨.value s e :: inner, ?_, hno.cons_value s e⟩
    rw [Inline]
    exact ⟨h', inner, hheader, hin, rfl⟩
  · intro s e h
    refine ⟨[], ?_, hnil⟩
    rw [ItemsAt]
    exact ⟨hempty h, rfl⟩
  · intro v items ih ih' s e h
    rw [inlineItems] at h
    obtain ⟨m, hv, hitems⟩ := h.split
    obtain ⟨f₁, h₁, hno₁⟩ := ih _ _ hv
    obtain ⟨f₂, h₂, hno₂⟩ := ih' _ _ hitems
    refine ⟨f₁ ++ f₂, ?_, hno₁.append hno₂⟩
    rw [ItemsAt]
    exact ⟨m, f₁, f₂, Or.inl h₁, h₂, rfl⟩
  · intro s e h
    refine ⟨[], ?_, hnil⟩
    rw [EntriesAt]
    exact ⟨hempty h, rfl⟩
  · intro k v m ih ih' s e h
    rw [inlineEntries] at h
    obtain ⟨p, hk, h⟩ := h.split
    obtain ⟨q, hv, hm⟩ := h.split
    obtain ⟨f₂, h₂, hno₂⟩ := ih _ _ hv
    obtain ⟨f₃, h₃, hno₃⟩ := ih' _ _ hm
    refine ⟨[.value s p] ++ (f₂ ++ f₃), ?_, (hnil.cons_value s p).append (hno₂.append hno₃)⟩
    rw [EntriesAt]
    exact ⟨p, q, [.value s p], f₂, f₃, Or.inl ⟨hk, rfl⟩, Or.inl h₂, h₃, rfl⟩

end Layout

namespace DataSection

section Plain

variable {d : DataSection} {v : Value} {f : DataSection → DataSection}

/-- Without pointers a value is emitted as it is encoded. -/
theorem emitInlineWith_plain (h : d.noPointers = true) :
    d.emitInlineWith f v = d.emitFresh f v := by
  unfold emitInlineWith
  rw [if_pos h]

/-- Without pointers the encoding does not depend on what was encoded before. -/
theorem encode_plain :
    (∀ (v : Value) (d : DataSection), d.noPointers = true →
      (encode v d).bytes = d.bytes ++ inlineBytes v ∧ (encode v d).noPointers = true) ∧
    (∀ (items : List Value) (d : DataSection), d.noPointers = true →
      (encodeItems items d).bytes = d.bytes ++ inlineItems items ∧
        (encodeItems items d).noPointers = true) ∧
    ∀ (m : List (String × Value)) (d : DataSection), d.noPointers = true →
      (encodeEntries m d).bytes = d.bytes ++ inlineEntries m ∧
        (encodeEntries m d).noPointers = true := by
  have hemit : ∀ (v : Value) (d : DataSection), d.noPointers = true →
      ((encode v d).bytes = d.bytes ++ inlineBytes v ∧ (encode v d).noPointers = true) →
      (d.emitInline v).bytes = d.bytes ++ inlineBytes v ∧ (d.emitInline v).noPointers = true := by
    intro v d hd h
    unfold emitInline
    rw [emitInlineWith_plain hd, emitFresh_bytes.1, emitFresh_bytes.2]
    exact h
  have hscalar : ∀ {v : Value} {x : List UInt8}, scalarEncoding v = some x → ∀ d : DataSection,
      d.noPointers = true →
      (encode v d).bytes = d.bytes ++ inlineBytes v ∧ (encode v d).noPointers = true := by
    intro v x hx d hd
    rw [encode_scalar hx, Value.inlineBytes_scalar hx]
    exact ⟨rfl, hd⟩
  refine Value.induct ?_ ?_ ?_ ?_ ?_ ?_ ?_
  · exact fun v x hx d hd => hscalar hx d hd
  · intro m ih d hd
    obtain ⟨hb, hn⟩ := ih (d.append (controlByte .map m.length)) hd
    rw [encode, inlineBytes, hb]
    exact ⟨List.append_assoc _ _ _, hn⟩
  · intro items ih d hd
    obtain ⟨hb, hn⟩ := ih (d.append (extendedHeader .array items.length)) hd
    rw [encode, inlineBytes, hb]
    exact ⟨List.append_assoc _ _ _, hn⟩
  · intro d hd
    rw [encodeItems, inlineItems, List.append_nil]
    exact ⟨rfl, hd⟩
  · intro v items ih ih' d hd
    obtain ⟨hb, hn⟩ := hemit v d hd (ih d hd)
    obtain ⟨hb', hn'⟩ := ih' (d.emitInline v) hn
    rw [hb, List.append_assoc] at hb'
    rw [encodeItems, inlineItems]
    exact ⟨hb', hn'⟩
  · intro d hd
    rw [encodeEntries, inlineEntries, List.append_nil]
    exact ⟨rfl, hd⟩
  · intro k v m ih ih' d hd
    obtain ⟨hk, hnk⟩ := hemit (.string k) d hd (hscalar rfl d hd)
    obtain ⟨hb, hn⟩ := hemit v (d.emitInline (.string k)) hnk (ih _ hnk)
    obtain ⟨hb', hn'⟩ := ih' _ hn
    rw [hb, hk, Value.inlineBytes_scalar rfl, List.append_assoc, List.append_assoc] at hb'
    rw [encodeEntries, inlineEntries, emitKey_eq]
    exact ⟨hb', hn'⟩

end Plain

section Known

/-- The value has an entry in the table. -/
def Known (d : DataSection) (v : Value) : Prop := d.dedup.lookup v ≠ none

/-- What is in a known value is known. -/
def Closed (d : DataSection) : Prop := ∀ v, d.Known v → All d.Known v

theorem Grows.known {d d' : DataSection} (h : Grows d d') {v : Value} (hv : d.Known v) :
    d'.Known v := by
  obtain ⟨entry, hentry⟩ := Option.ne_none_iff_exists'.mp hv
  have := h.lookup v entry hentry
  unfold Known
  rw [this]
  exact Option.some_ne_none entry

theorem known_insert {d : DataSection} {u v : Value} {entry : DedupEntry} :
    ({ d with dedup := (v, entry) :: d.dedup } : DataSection).Known u ↔ u = v ∨ d.Known u := by
  show List.lookup u ((v, entry) :: d.dedup) ≠ none ↔ _
  rw [List.lookup_cons]
  by_cases h : u = v
  · simp [h]
  · rw [beq_false_of_ne h]
    simp [h, Known]

theorem Closed.insert {d : DataSection} (h : d.Closed) {v : Value} (hv : Inner d.Known v)
    (entry : DedupEntry) :
    ({ d with dedup := (v, entry) :: d.dedup } : DataSection).Closed := by
  intro u hu
  have hmono : ∀ w, d.Known w →
      ({ d with dedup := (v, entry) :: d.dedup } : DataSection).Known w :=
    fun w hw => known_insert.mpr (Or.inr hw)
  rcases known_insert.mp hu with rfl | hu
  · exact Value.all_iff.mpr ⟨known_insert.mpr (Or.inl rfl), hv.mono hmono⟩
  · exact (Value.all_mono hmono).1 u (h u hu)

theorem emitFresh_closed {d : DataSection} {f : DataSection → DataSection} {v : Value}
    (h : (f d).Closed) (hv : Inner (f d).Known v) :
    (d.emitFresh f v).Closed ∧ All (d.emitFresh f v).Known v := by
  cases hlook : (f d).dedup.lookup v with
  | some _ =>
    rw [emitFresh_of_some hlook]
    exact ⟨h, h v (by unfold Known; rw [hlook]; simp)⟩
  | none =>
    rw [emitFresh_of_none hlook]
    have hc := h.insert hv ⟨d.u32Len, (f d).u32Len - d.u32Len⟩
    exact ⟨hc, hc v (known_insert.mpr (Or.inl rfl))⟩

theorem emitInlineWith_closed {d : DataSection} {f : DataSection → DataSection} {v : Value}
    (h : d.Closed) (hf : (f d).Closed ∧ Inner (f d).Known v) :
    (d.emitInlineWith f v).Closed ∧ All (d.emitInlineWith f v).Known v := by
  unfold emitInlineWith
  by_cases hno : d.noPointers = true
  · rw [if_pos hno]
    exact emitFresh_closed hf.1 hf.2
  · rw [if_neg hno]
    cases hlook : d.dedup.lookup v with
    | none => exact emitFresh_closed hf.1 hf.2
    | some entry =>
      dsimp only
      split_ifs
      · exact ⟨h, h v (by unfold Known; rw [hlook]; simp)⟩
      · exact emitFresh_closed hf.1 hf.2

/-- Encoding a value makes known all that is in it. -/
theorem encode_closed :
    (∀ (v : Value) (d : DataSection), d.Closed →
      (encode v d).Closed ∧ Inner (encode v d).Known v) ∧
    (∀ (items : List Value) (d : DataSection), d.Closed →
      (encodeItems items d).Closed ∧ AllArray (encodeItems items d).Known items) ∧
    ∀ (m : List (String × Value)) (d : DataSection), d.Closed →
      (encodeEntries m d).Closed ∧ AllMap (encodeEntries m d).Known m := by
  refine Value.induct ?_ ?_ ?_ ?_ ?_ ?_ ?_
  · intro v x hx d h
    rw [encode_scalar hx]
    exact ⟨h, Value.inner_scalar hx⟩
  · exact fun m ih d h => ih (d.append (controlByte .map m.length)) h
  · exact fun items ih d h => ih (d.append (extendedHeader .array items.length)) h
  · exact fun d h => ⟨h, trivial⟩
  · intro v items ih ih' d h
    rw [encodeItems]
    obtain ⟨hc, hv⟩ := emitInlineWith_closed h (ih d h)
    obtain ⟨hc', hitems⟩ := ih' _ hc
    exact ⟨hc', (Value.all_mono fun _ => (grows_encode.2.1 items _).known).1 v hv, hitems⟩
  · exact fun d h => ⟨h, trivial⟩
  · intro k v m ih ih' d h
    rw [encodeEntries, emitKey_eq]
    obtain ⟨hc, hk⟩ := emitInlineWith_closed (f := encode (.string k)) h
      ⟨by rw [encode_scalar rfl]; exact h, Value.inner_scalar (v := .string k) rfl⟩
    obtain ⟨hc', hv⟩ := emitInlineWith_closed hc (ih _ hc)
    obtain ⟨hc'', hm⟩ := ih' _ hc'
    have hg := grows_encode.2.2 m ((d.emitInline (.string k)).emitInlineWith (encode v) v)
    have hg' := grows_emitInlineWith (grows_encode.1 v) v (d.emitInline (.string k))
    exact ⟨hc'', (hg'.trans hg).known (Value.all_iff.mp hk).1,
      (Value.all_mono fun _ => hg.known).1 v hv, hm⟩

theorem encode_known (K : Value → Prop) :
    (∀ (v : Value) (d : DataSection), (∀ u, d.Known u → K u) → Inner K v →
      ∀ u, (encode v d).Known u → K u) ∧
    (∀ (items : List Value) (d : DataSection), (∀ u, d.Known u → K u) → AllArray K items →
      ∀ u, (encodeItems items d).Known u → K u) ∧
    ∀ (m : List (String × Value)) (d : DataSection), (∀ u, d.Known u → K u) → AllMap K m →
      ∀ u, (encodeEntries m d).Known u → K u := by
  have hemit : ∀ {d : DataSection} {f : DataSection → DataSection} {v : Value},
      (∀ u, d.Known u → K u) → (∀ u, (f d).Known u → K u) → K v →
      ∀ u, (d.emitInlineWith f v).Known u → K u := by
    intro d f v hd hf hv
    have hfresh : ∀ u, (d.emitFresh f v).Known u → K u := by
      intro u hu
      cases hlook : (f d).dedup.lookup v with
      | some _ =>
        rw [emitFresh_of_some hlook] at hu
        exact hf u hu
      | none =>
        rw [emitFresh_of_none hlook] at hu
        rcases known_insert.mp hu with rfl | hu
        · exact hv
        · exact hf u hu
    unfold emitInlineWith
    split_ifs
    · exact hfresh
    · split
      · split_ifs
        · exact hd
        · exact hfresh
      · exact hfresh
  refine Value.induct ?_ ?_ ?_ ?_ ?_ ?_ ?_
  · intro v x hx d hd _
    rw [encode_scalar hx]
    exact hd
  · exact fun m ih d hd hv => ih (d.append (controlByte .map m.length)) hd hv
  · exact fun items ih d hd hv => ih (d.append (extendedHeader .array items.length)) hd hv
  · exact fun d hd _ => hd
  · intro v items ih ih' d hd hi
    rw [encodeItems]
    have hv := Value.all_iff.mp hi.1
    exact ih' _ (hemit hd (ih d hd hv.2) hv.1) hi.2
  · exact fun d hd _ => hd
  · intro k v m ih ih' d hd hm
    rw [encodeEntries, emitKey_eq]
    have hv := Value.all_iff.mp hm.2.1
    have hk : ∀ u, (d.emitInline (.string k)).Known u → K u :=
      hemit hd (by rw [encode_scalar rfl]; exact hd) hm.1
    exact ih' _ (hemit hk (ih _ hk hv.2) hv.1) hm.2.2

end Known

section Length

/-- No entry is longer than its value without pointers. -/
def Within (d : DataSection) : Prop :=
  ∀ v entry, d.dedup.lookup v = some entry → entry.len ≤ (inlineBytes v).length

/-- A step that writes at most `n` bytes and keeps the entries within their limits. -/
def WritesWithin (d d' : DataSection) (n : ℕ) : Prop :=
  d'.Within ∧ d'.bytes.length ≤ d.bytes.length + n

theorem Within.insert {d : DataSection} (h : d.Within) {v : Value} {entry : DedupEntry}
    (hv : entry.len ≤ (inlineBytes v).length) :
    ({ d with dedup := (v, entry) :: d.dedup } : DataSection).Within := by
  intro u e hu
  have hu : List.lookup u ((v, entry) :: d.dedup) = some e := hu
  rw [List.lookup_cons] at hu
  by_cases huv : u = v
  · rw [huv, beq_self_eq_true, Option.some.injEq] at hu
    rw [← hu, huv]
    exact hv
  · rw [beq_false_of_ne huv] at hu
    exact h u e hu

theorem u32Len_sub_le {d d' : DataSection} {n : ℕ} (h : d'.bytes.length ≤ d.bytes.length + n) :
    d'.u32Len - d.u32Len ≤ n := by
  unfold u32Len u32FromUsize
  omega

theorem emitInlineWith_within {d : DataSection} {f : DataSection → DataSection} {v : Value}
    (h : d.Within) (hf : WritesWithin d (f d) (inlineBytes v).length) :
    WritesWithin d (d.emitInlineWith f v) (inlineBytes v).length := by
  have hfresh : WritesWithin d (d.emitFresh f v) (inlineBytes v).length := by
    refine ⟨?_, by rw [emitFresh_bytes.1]; exact hf.2⟩
    cases hlook : (f d).dedup.lookup v with
    | some _ =>
      rw [emitFresh_of_some hlook]
      exact hf.1
    | none =>
      rw [emitFresh_of_none hlook]
      exact hf.1.insert (u32Len_sub_le hf.2)
  unfold emitInlineWith
  by_cases hno : d.noPointers = true
  · rw [if_pos hno]
    exact hfresh
  · rw [if_neg hno]
    cases hlook : d.dedup.lookup v with
    | none => exact hfresh
    | some entry =>
      dsimp only
      split_ifs with hlong
      · -- the pointer is shorter than the entry
        have := h v entry hlook
        refine ⟨h, ?_⟩
        show (d.bytes ++ pointerEncoding entry.offset).length ≤ _
        rw [List.length_append, length_pointerEncoding]
        omega
      · exact hfresh

theorem encode_within :
    (∀ (v : Value) (d : DataSection), d.Within →
      WritesWithin d (encode v d) (inlineBytes v).length) ∧
    (∀ (items : List Value) (d : DataSection), d.Within →
      WritesWithin d (encodeItems items d) (inlineItems items).length) ∧
    ∀ (m : List (String × Value)) (d : DataSection), d.Within →
      WritesWithin d (encodeEntries m d) (inlineEntries m).length := by
  have hscalar : ∀ {v : Value} {x : List UInt8}, scalarEncoding v = some x → ∀ d : DataSection,
      d.Within → WritesWithin d (encode v d) (inlineBytes v).length := by
    intro v x hx d h
    rw [encode_scalar hx, Value.inlineBytes_scalar hx]
    exact ⟨h, List.length_append.le⟩
  have hheader : ∀ {d d' : DataSection} {b : List UInt8} {n : ℕ},
      WritesWithin (d.append b) d' n → WritesWithin d d' (b.length + n) := by
    intro d d' b n h
    have hle : d'.bytes.length ≤ (d.bytes ++ b).length + n := h.2
    rw [List.length_append, Nat.add_assoc] at hle
    exact ⟨h.1, hle⟩
  refine Value.induct ?_ ?_ ?_ ?_ ?_ ?_ ?_
  · exact fun v x hx d h => hscalar hx d h
  · intro m ih d h
    rw [encode, inlineBytes, List.length_append]
    exact hheader (ih _ h)
  · intro items ih d h
    rw [encode, inlineBytes, List.length_append]
    exact hheader (ih _ h)
  · exact fun d h => ⟨h, le_rfl⟩
  · intro v items ih ih' d h
    rw [encodeItems, inlineItems, List.length_append]
    obtain ⟨hw, hle⟩ := emitInlineWith_within h (ih d h)
    obtain ⟨hw', hle'⟩ := ih' _ hw
    exact ⟨hw', by omega⟩
  · exact fun d h => ⟨h, le_rfl⟩
  · intro k v m ih ih' d h
    rw [encodeEntries, emitKey_eq, inlineEntries, List.length_append, List.length_append]
    have hk : WritesWithin d (d.emitInline (.string k)) (blob .utf8 (strBytes k)).length :=
      emitInlineWith_within h (hscalar (v := .string k) rfl d h)
    obtain ⟨hw', hle'⟩ := emitInlineWith_within hk.1 (ih _ hk.1)
    obtain ⟨hw'', hle''⟩ := ih' _ hw'
    have hle := hk.2
    exact ⟨hw'', by omega⟩

end Length

section Push

variable {d p q : DataSection}

/-- The section of the values without pointers. -/
def plainOf (values : List Value) : DataSection := (pushAll values withoutPointers).1

/-- The offsets of the values in it. -/
def plainOffsets (values : List Value) : List ℕ := (pushAll values withoutPointers).2

theorem inlineItems_append : ∀ a b : List Value,
    inlineItems (a ++ b) = inlineItems a ++ inlineItems b
  | [], _ => rfl
  | v :: a, b => by
    rw [List.cons_append, inlineItems, inlineItems_append a b, inlineItems, List.append_assoc]

/-- Without pointers the section is the values that were new, one after the other. -/
theorem pushAll_plain : ∀ (values tops : List Value) (d : DataSection), d.noPointers = true →
    d.bytes = inlineItems tops → ∃ more, (∀ u ∈ more, u ∈ values) ∧
      (pushAll values d).1.noPointers = true ∧
      (pushAll values d).1.bytes = inlineItems (tops ++ more)
  | [], tops, d, hd, hb => ⟨[], by simp, hd, by rw [List.append_nil]; exact hb⟩
  | v :: values, tops, d, hd, hb => by
    cases hlook : d.dedup.lookup v with
    | some entry =>
      have hpush : (d.push v).1 = d := by rw [push_of_some hlook]
      obtain ⟨more, hmore, hd', hb'⟩ := pushAll_plain values tops d hd hb
      rw [pushAll, hpush]
      exact ⟨more, fun u hu => List.mem_cons_of_mem v (hmore u hu), hd', hb'⟩
    | none =>
      have henc := encode_plain.1 v d hd
      have hpush : (d.push v).1.noPointers = true ∧
          (d.push v).1.bytes = inlineItems (tops ++ [v]) := by
        rw [push_of_none hlook, inlineItems_append, ← hb]
        refine ⟨henc.2, henc.1.trans ?_⟩
        rw [inlineItems, inlineItems, List.append_nil]
      obtain ⟨more, hmore, hd', hb'⟩ := pushAll_plain values (tops ++ [v]) _ hpush.1 hpush.2
      refine ⟨v :: more, ?_, hd', by rw [pushAll, hb', List.append_assoc]; rfl⟩
      intro u hu
      rcases List.mem_cons.mp hu with rfl | hu
      · exact List.mem_cons_self
      · exact List.mem_cons_of_mem v (hmore u hu)

/-- Two sections that took the same values, the first with pointers. -/
structure Twins (p q : DataSection) : Prop where
  closed : p.Closed
  within : p.Within
  known : ∀ v, q.Known v → p.Known v
  plain : q.noPointers = true
  le : p.bytes.length ≤ q.bytes.length

theorem twins_new : Twins new withoutPointers where
  closed _ h := absurd rfl h
  within _ _ h := by cases h
  known _ h := absurd rfl h
  plain := rfl
  le := le_rfl

/-- A push keeps the section with pointers the shorter one. -/
theorem Twins.push (h : Twins p q) (v : Value) : Twins (p.push v).1 (q.push v).1 := by
  cases hp : p.dedup.lookup v with
  | some entry =>
    have hv : All p.Known v := h.closed v (by unfold Known; rw [hp]; simp)
    rw [push_of_some hp]
    cases hq : q.dedup.lookup v with
    | some entry' =>
      rw [push_of_some hq]
      exact h
    | none =>
      rw [push_of_none hq]
      have hle := (grows_encode.1 v q).length_le
      refine ⟨h.closed, h.within, fun u hu => ?_, (encode_plain.1 v q h.plain).2, h.le.trans hle⟩
      rcases known_insert.mp hu with rfl | hu
      · exact (Value.all_iff.mp hv).1
      · exact (encode_known p.Known).1 v q h.known (Value.all_iff.mp hv).2 u hu
  | none =>
    have hq : q.dedup.lookup v = none := by
      by_contra hne
      exact h.known v hne hp
    obtain ⟨hclosed, hinner⟩ := encode_closed.1 v p h.closed
    obtain ⟨hwithin, hle⟩ := encode_within.1 v p h.within
    obtain ⟨hbytes, hplain⟩ := encode_plain.1 v q h.plain
    rw [push_of_none hp, push_of_none hq]
    refine ⟨hclosed.insert hinner _, hwithin.insert (u32Len_sub_le hle), fun u hu => ?_, hplain, ?_⟩
    · rcases known_insert.mp hu with rfl | hu
      · exact known_insert.mpr (Or.inl rfl)
      · refine known_insert.mpr (Or.inr ?_)
        exact (encode_known (encode v p).Known).1 v q
          (fun w hw => (grows_encode.1 v p).known (h.known w hw)) hinner u hu
    · have := h.le
      show (encode v p).bytes.length ≤ (encode v q).bytes.length
      rw [hbytes, List.length_append]
      omega

theorem Twins.pushAll : ∀ (values : List Value) {p q : DataSection}, Twins p q →
    Twins (pushAll values p).1 (pushAll values q).1
  | [], _, _, h => h
  | v :: values, _, _, h => Twins.pushAll values (h.push v)

/-- Pointers never cost space. -/
theorem ofValues_length_le (values : List Value) :
    (ofValues values).bytes.length ≤ (plainOf values).bytes.length :=
  (twins_new.pushAll values).le

end Push

section Agree

variable {values : List Value}

/-- The sections of the values with and without pointers: after every push the offsets lead to the
values in both, there is no pointer in the one without, and the one with is no longer. -/
structure Agree (values : List Value) : Prop where
  decodes : ∀ front, front <+: values → List.Forall₂ (fun v offset =>
    Decodes (ofValues front).bytes offset.1 v ∧ Decodes (plainOf front).bytes offset.2 v)
      front ((offsets front).zip (plainOffsets front))
  plain : ∃ fields, Scans (plainOf values).bytes fields ∧ NoPointer fields
  shorter : ∀ front, front <+: values →
    (ofValues front).bytes.length ≤ (plainOf front).bytes.length

theorem forall₂_zip {α β γ : Type} {R : α → β → Prop} {S : α → γ → Prop} :
    ∀ {l : List α} {m : List β} {n : List γ}, List.Forall₂ R l m → List.Forall₂ S l n →
      List.Forall₂ (fun a x => R a x.1 ∧ S a x.2) l (m.zip n)
  | _, _, _, .nil, .nil => .nil
  | _, _, _, .cons hR hRs, .cons hS hSs => .cons ⟨hR, hS⟩ (forall₂_zip hRs hSs)

theorem scans_plain (hh : ∀ v ∈ values, All HeaderOk v) (hsize : ∀ v ∈ values, All SizeOk v) :
    ∃ fields, Scans (plainOf values).bytes fields ∧ NoPointer fields := by
  obtain ⟨tops, htops, -, hb⟩ := pushAll_plain values [] withoutPointers rfl rfl
  rw [List.nil_append] at hb
  have hslice : Slice (plainOf values).bytes 0 (plainOf values).bytes.length (inlineItems tops) :=
    ⟨[], [], by rw [List.nil_append, List.append_nil]; exact hb, rfl, by rw [Nat.zero_add, ← hb]; rfl⟩
  obtain ⟨fields, hitems, hno⟩ := inline_of_slice.2.1 tops _ _ hslice
  obtain ⟨n, hn⟩ := scansAt_inline.2.1 tops (allArray_of_mem fun u hu => hh u (htops u hu))
    (allArray_of_mem fun u hu => hsize u (htops u hu)) _ _ _ hitems
  have hscan := hn n le_rfl
  rw [List.drop_length, List.drop_zero] at hscan
  exact ⟨fields, ⟨n, tops.length, hscan⟩, hno⟩

theorem prefix_length_le {front : List Value} (h : front <+: values) (d : DataSection) :
    (pushAll front d).1.bytes.length ≤ (pushAll values d).1.bytes.length := by
  obtain ⟨back, rfl⟩ := h
  rw [pushAll_append]
  exact (grows_pushAll back _).length_le

theorem agree_of_headerOk (hh : ∀ v ∈ values, All HeaderOk v) (hsize : ∀ v ∈ values, All SizeOk v)
    (hlen : (plainOf values).bytes.length < 2 ^ 32) : Agree values where
  decodes front hfront := by
    have hmem : ∀ v ∈ front, v ∈ values := fun v hv => hfront.subset hv
    have hplain := lt_of_le_of_lt (prefix_length_le hfront withoutPointers) hlen
    have hptr := lt_of_le_of_lt (ofValues_length_le front) hplain
    exact forall₂_zip
      (decodes_pushAll sound_new (fun v hv => hh v (hmem v hv)) (fun v hv => hsize v (hmem v hv)) hptr)
      (decodes_pushAll (sound_empty rfl rfl) (fun v hv => hh v (hmem v hv))
        (fun v hv => hsize v (hmem v hv)) hplain)
  plain := scans_plain hh hsize
  shorter front _ := ofValues_length_le front

theorem Agree.headerOk (h : Agree values) (hsize : ∀ v ∈ values, All SizeOk v)
    (hlen : (plainOf values).bytes.length < 2 ^ 32) : ∀ v ∈ values, All HeaderOk v := by
  intro v hv
  by_contra hh
  have hptr := lt_of_le_of_lt (ofValues_length_le values) hlen
  obtain ⟨-, -, -, -, -, hinline⟩ := ofValues_spec hptr
  have hlen2 : (plainOffsets values).length = values.length := length_pushAll _ _
  have hlen1 : (offsets values).length = values.length := length_pushAll _ _
  obtain ⟨i, hi, rfl⟩ := List.mem_iff_getElem.mp hv
  have hdec := (List.forall₂_iff_get.mp (h.decodes values (List.prefix_refl _))).2 i hi
    (by rw [List.length_zip]; omega)
  obtain ⟨stop, inner, hin⟩ := (List.forall₂_iff_get.mp hinline).2 i hi (by omega)
  simp only [List.get_eq_getElem, List.getElem_zip] at hdec hin
  obtain ⟨⟨fuel, rest, hd⟩, -⟩ := hdec
  exact misreadAt_inline.1 _ hh (hsize _ hv) _ _ _ hin fuel rest hd

end Agree

end DataSection

section Metadata

/-- The metadata map is read back from both ways to write it. -/
def Metadata.Agrees (m : Metadata) : Prop :=
  Decodes { m with disablePointers := false }.toBytes 0 m.toMap ∧
    Decodes { m with disablePointers := true }.toBytes 0 m.toMap

theorem allMap_string {P : Value → Prop} (h : ∀ s, P (.string s)) :
    ∀ l : List (String × String), AllMap P (l.map fun e => (e.1, .string e.2))
  | [] => trivial
  | e :: l => ⟨h e.1, h e.2, allMap_string h l⟩

theorem allArray_string {P : Value → Prop} (h : ∀ s, P (.string s)) :
    ∀ l : List String, AllArray P (l.map .string)
  | [] => trivial
  | s :: l => ⟨h s, allArray_string h l⟩

/-- The only array of the metadata is that of the languages. -/
theorem headerOk_toMap (m : Metadata) :
    All HeaderOk m.toMap ↔ ArrayLenOk m.languages.length := by
  have hdesc := allMap_string (P := HeaderOk) (fun _ => trivial) m.descriptions
  have hlang := allArray_string (P := HeaderOk) (fun _ => trivial) m.languages
  rw [Metadata.toMap_eq]
  simp [All, AllMap, HeaderOk, hdesc, hlang]

theorem Metadata.agrees_iff {m : Metadata} (hsize : All SizeOk m.toMap)
    (hlen : (DataSection.plainOf [m.toMap]).bytes.length < 2 ^ 32) :
    m.Agrees ↔ DataSection.Agree [m.toMap] := by
  constructor
  · rintro ⟨⟨fuel, rest, hd⟩, -⟩
    refine DataSection.agree_of_headerOk (fun v hv => ?_) (by simpa using hsize) hlen
    rw [List.mem_singleton.mp hv]
    by_contra hh
    have hptr := lt_of_le_of_lt (DataSection.ofValues_length_le [m.toMap]) hlen
    obtain ⟨-, -, -, -, -, hinline⟩ := DataSection.ofValues_spec hptr
    cases hinline with
    | cons hin _ =>
      obtain ⟨stop, inner, hin⟩ := hin
      exact misreadAt_inline.1 _ hh hsize _ _ _ hin fuel rest hd
  · intro h
    cases h.decodes _ (List.prefix_refl _) with
    | cons hd _ => exact hd

end Metadata

/-- With and without pointers the sections agree exactly when no array has a misread header. -/
theorem DataSection.agree_iff (values : List Value) (m : Metadata)
    (hsize : ∀ v ∈ values, All SizeOk v) (hlen : (plainOf values).bytes.length < 2 ^ 32)
    (hmsize : All SizeOk m.toMap) (hmlen : (plainOf [m.toMap]).bytes.length < 2 ^ 32) :
    (Agree values ↔ ∀ v ∈ values, All HeaderOk v) ∧
      (m.Agrees ↔ ArrayLenOk m.languages.length) := by
  have hmap : ∀ v ∈ [m.toMap], All SizeOk v := by simpa using hmsize
  refine ⟨⟨fun h => h.headerOk hsize hlen, fun hh => agree_of_headerOk hh hsize hlen⟩, ?_⟩
  rw [m.agrees_iff hmsize hmlen, ← headerOk_toMap]
  constructor
  · intro h
    exact h.headerOk hmap hmlen _ (List.mem_singleton_self _)
  · intro hh
    exact agree_of_headerOk (by simpa using hh) hmap hmlen

theorem DataSection.agree_iff_city :
    Agree [.map [("city", .string "Oslo"), ("ids", .array [.u16 7, .u32 0])], .string "Oslo"] ∧
      Metadata.Agrees ⟨"City", [("en", "City")], ["en", "de"], .v6, .bits24, 3, 0, false⟩ := by
  obtain ⟨hvalues, hmeta⟩ := agree_iff
    [.map [("city", .string "Oslo"), ("ids", .array [.u16 7, .u32 0])], .string "Oslo"]
    ⟨"City", [("en", "City")], ["en", "de"], .v6, .bits24, 3, 0, false⟩
    (by decide +kernel) (by decide +kernel) (by decide +kernel) (by decide +kernel)
  exact ⟨hvalues.mpr (by decide +kernel), hmeta.mpr (by decide +kernel)⟩

/-- An array of 29 items is read as a map, whose first key is no string. -/
theorem DataSection.not_agree_array :
    (∀ v ∈ [Value.array (List.replicate 29 (.bool true))], All SizeOk v) ∧
      (plainOf [Value.array (List.replicate 29 (.bool true))]).bytes.length < 2 ^ 32 ∧
      offsets [Value.array (List.replicate 29 (.bool true))] = [0] ∧
      plainOffsets [Value.array (List.replicate 29 (.bool true))] = [0] ∧
      ¬ (∃ v, Decodes (ofValues [Value.array (List.replicate 29 (.bool true))]).bytes 0 v ∧
        Decodes (plainOf [Value.array (List.replicate 29 (.bool true))]).bytes 0 v) ∧
      ¬ Agree [Value.array (List.replicate 29 (.bool true))] := by
  refine ⟨by decide +kernel, by decide +kernel, by decide +kernel, by decide +kernel, ?_, fun h => ?_⟩
  · rintro ⟨v, -, fuel, rest, hd⟩
    have hread : Mmdb.readHeader
        (plainOf [Value.array (List.replicate 29 (.bool true))]).bytes = some (.data 7 33,
          (List.replicate 29 [1, 7]).flatten) := by decide +kernel
    rw [List.drop_zero] at hd
    generalize (plainOf [Value.array (List.replicate 29 (.bool true))]).bytes = data at hd hread
    rcases fuel with _ | _ | fuel
    · cases hd
    · unfold Mmdb.decode at hd
      rw [hread] at hd
      cases hd
    · unfold Mmdb.decode at hd
      rw [hread] at hd
      cases hd
  · have hok := h.headerOk (by decide +kernel) (by decide +kernel)
    revert hok
    decide +kernel

end MmdbWriter
