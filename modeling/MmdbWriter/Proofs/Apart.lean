import MmdbWriter.Proofs.Pushes

/-!
# One offset for each value

An encoding starts with a byte of its own, so what is nested in it starts after it, and what is written
later starts after its end. So no two values of the table have one offset, as long as it is not cut off.
-/

namespace MmdbWriter.DataSection

/-- Of the entries whose offset is not cut off, no two start at one place, and all start before the
end. -/
structure Apart (d : DataSection) : Prop where
  injective : ∀ u u' e e', d.dedup.lookup u = some e → d.dedup.lookup u' = some e' →
    e.offset = e'.offset → e.offset < u32Max → u = u'
  lt : ∀ u e, d.dedup.lookup u = some e → e.offset < u32Max → e.offset < d.bytes.length

/-- The entries of the later section that the earlier one does not have start at `k` or after it. -/
def NewFrom (k : ℕ) (d d' : DataSection) : Prop :=
  ∀ u e, d'.dedup.lookup u = some e → e.offset < u32Max →
    d.dedup.lookup u = some e ∨ k ≤ e.offset

section

variable {d d' d'' : DataSection} {f : DataSection → DataSection} {v : Value} {k k' : ℕ}

theorem apart_of_empty (h : d.dedup = []) : Apart d where
  injective u u' e e' hu := by
    rw [h] at hu
    cases hu
  lt u e hu := by
    rw [h] at hu
    cases hu

theorem Apart.append (h : Apart d) (b : List UInt8) : Apart (d.append b) where
  injective := h.injective
  lt u e hu hlt := by
    have := h.lt u e hu hlt
    show e.offset < (d.bytes ++ b).length
    rw [List.length_append]
    omega

theorem newFrom_append (k : ℕ) (d : DataSection) (b : List UInt8) : NewFrom k d (d.append b) :=
  fun _ _ hu _ => Or.inl hu

theorem NewFrom.trans (h : NewFrom k d d') (h' : NewFrom k' d' d'') (hk : k ≤ k') :
    NewFrom k d d'' := by
  intro u e hu hlt
  rcases h' u e hu hlt with hu | hle
  · exact h u e hu hlt
  · exact Or.inr (hk.trans hle)

theorem Apart.insert (h : Apart d) (h' : Apart d') (hnew : NewFrom (d.bytes.length + 1) d d')
    (hlt : d.bytes.length < d'.bytes.length) (v : Value) (len : ℕ) :
    Apart { d' with dedup := (v, ⟨d.u32Len, len⟩) :: d'.dedup } ∧
      NewFrom d.bytes.length d { d' with dedup := (v, ⟨d.u32Len, len⟩) :: d'.dedup } := by
  have hoff : d.u32Len < u32Max → d.u32Len = d.bytes.length := by
    unfold u32Len u32FromUsize
    omega
  have hcases : ∀ u e, List.lookup u ((v, ⟨d.u32Len, len⟩) :: d'.dedup) = some e →
      u = v ∧ e.offset = d.u32Len ∨ d'.dedup.lookup u = some e := by
    intro u e hu
    rw [List.lookup_cons] at hu
    by_cases huv : u = v
    · rw [huv, beq_self_eq_true, Option.some.injEq] at hu
      exact Or.inl ⟨huv, by rw [← hu]⟩
    · rw [beq_false_of_ne huv] at hu
      exact Or.inr hu
  have hother : ∀ u e, d'.dedup.lookup u = some e → e.offset < u32Max →
      e.offset ≠ d.bytes.length := by
    intro u e hu hlt'
    rcases hnew u e hu hlt' with hu | hle
    · exact (h.lt u e hu hlt').ne
    · omega
  refine ⟨⟨fun u u' e e' hu hu' heq hlt' => ?_, fun u e hu hlt' => ?_⟩, fun u e hu hlt' => ?_⟩
  · rcases hcases u e hu with ⟨h₁, he⟩ | h₁ <;> rcases hcases u' e' hu' with ⟨h₂, he'⟩ | h₂
    · rw [h₁, h₂]
    · exact absurd (by rw [← heq, he, hoff (he ▸ hlt')]) (hother u' e' h₂ (heq ▸ hlt'))
    · exact absurd (by rw [heq, he', hoff (he' ▸ heq ▸ hlt')]) (hother u e h₁ hlt')
    · exact h'.injective u u' e e' h₁ h₂ heq hlt'
  · rcases hcases u e hu with ⟨-, he⟩ | hu
    · have := hoff (he ▸ hlt')
      show e.offset < d'.bytes.length
      omega
    · exact h'.lt u e hu hlt'
  · rcases hcases u e hu with ⟨-, he⟩ | hu
    · exact Or.inr (by rw [he, hoff (he ▸ hlt')])
    · exact (hnew u e hu hlt').imp_right fun hle => by omega

/-- What an encoding does to the table. -/
structure Encodes (d d' : DataSection) : Prop where
  apart : Apart d'
  new : NewFrom (d.bytes.length + 1) d d'
  longer : d.bytes.length < d'.bytes.length

theorem apart_emitInlineWith (h : Apart d) (hf : Encodes d (f d)) :
    Apart (d.emitInlineWith f v) ∧ NewFrom d.bytes.length d (d.emitInlineWith f v) := by
  rcases emitInlineWith_cases f v d with ⟨entry, -, -, heq⟩ | heq <;> rw [heq]
  · exact ⟨h.append _, newFrom_append _ _ _⟩
  · cases hlook : (f d).dedup.lookup v with
    | some _ =>
      rw [emitFresh_of_some hlook]
      exact ⟨hf.apart, fun u e hu hlt => (hf.new u e hu hlt).imp_right fun hle => by omega⟩
    | none =>
      rw [emitFresh_of_none hlook]
      exact h.insert hf.apart hf.new hf.longer v _

theorem length_controlByte_pos (tag : TypeTag) (size : ℕ) : 1 ≤ (controlByte tag size).length := by
  unfold controlByte
  dsimp only
  split_ifs <;> simp

theorem length_scalarEncoding_pos {x : List UInt8} (hx : scalarEncoding v = some x) :
    1 ≤ x.length := by
  have h : ∀ (tag : TypeTag) (size : ℕ) (l : List UInt8), 1 ≤ (controlByte tag size ++ l).length := by
    intro tag size l
    rw [List.length_append]
    exact (length_controlByte_pos tag size).trans (Nat.le_add_right _ _)
  have hext : ∀ (ext : ExtendedType) (size : ℕ) (l : List UInt8),
      1 ≤ (extendedHeader ext size ++ l).length := by
    intro ext size l
    rw [extendedHeader, List.append_assoc]
    exact h _ _ _
  cases v <;> simp only [scalarEncoding, Option.some.injEq, reduceCtorEq] at hx <;> subst hx
  case bool b => simpa using hext .bool b.toNat []
  all_goals first | exact h _ _ _ | exact hext _ _ _

theorem Encodes.of_header {header : List UInt8} (hh : 1 ≤ header.length)
    (h : Apart d' ∧ NewFrom (d.append header).bytes.length (d.append header) d')
    (hle : (d.append header).bytes.length ≤ d'.bytes.length) : Encodes d d' := by
  have hlen : (d.append header).bytes.length = d.bytes.length + header.length :=
    List.length_append
  refine ⟨h.1, ?_, by omega⟩
  exact (newFrom_append _ d header).trans h.2 (by omega)

theorem encode_apart :
    (∀ (v : Value) (d : DataSection), Apart d → Encodes d (encode v d)) ∧
    (∀ (items : List Value) (d : DataSection), Apart d →
      Apart (encodeItems items d) ∧ NewFrom d.bytes.length d (encodeItems items d)) ∧
    ∀ (m : List (String × Value)) (d : DataSection), Apart d →
      Apart (encodeEntries m d) ∧ NewFrom d.bytes.length d (encodeEntries m d) := by
  refine Value.induct ?_ ?_ ?_ ?_ ?_ ?_ ?_
  · intro v x hx d h
    rw [encode_scalar hx]
    refine ⟨h.append x, newFrom_append _ d x, ?_⟩
    show d.bytes.length < (d.bytes ++ x).length
    have := length_scalarEncoding_pos hx
    rw [List.length_append]
    omega
  · intro m ih d h
    rw [encode]
    exact .of_header (length_controlByte_pos _ _) (ih _ (h.append _)) (grows_encode.2.2 _ _).length_le
  · intro items ih d h
    rw [encode]
    refine .of_header ?_ (ih _ (h.append _)) (grows_encode.2.1 _ _).length_le
    rw [extendedHeader, List.length_append]
    exact (length_controlByte_pos _ _).trans (Nat.le_add_right _ _)
  · intro d h
    rw [encodeItems]
    exact ⟨h, fun _ _ hu _ => Or.inl hu⟩
  · intro v items ih ih' d h
    rw [encodeItems]
    have hv := apart_emitInlineWith (v := v) h (ih d h)
    have hitems := ih' _ hv.1
    exact ⟨hitems.1, hv.2.trans hitems.2 (grows_emitInlineWith (grows_encode.1 v) v d).length_le⟩
  · intro d h
    rw [encodeEntries]
    exact ⟨h, fun _ _ hu _ => Or.inl hu⟩
  · intro k v m ih ih' d h
    rw [encodeEntries, emitKey_eq]
    have hk : Encodes d (encode (.string k) d) := by
      rw [encode_scalar (v := .string k) rfl]
      refine ⟨h.append _, newFrom_append _ d _, ?_⟩
      show d.bytes.length < (d.bytes ++ _).length
      have := length_scalarEncoding_pos (v := .string k) rfl
      rw [List.length_append]
      omega
    have hkey := apart_emitInlineWith (v := .string k) h hk
    have hv := apart_emitInlineWith (v := v) hkey.1 (ih _ hkey.1)
    have hm := ih' _ hv.1
    have hle := (grows_emitInlineWith (grows_encode.1 (.string k)) (.string k) d).length_le
    have hle' := (grows_emitInlineWith (grows_encode.1 v) v (d.emitInline (.string k))).length_le
    exact ⟨hm.1, (hkey.2.trans hv.2 hle).trans hm.2 (hle.trans hle')⟩

theorem Apart.push (h : Apart d) (v : Value) : Apart (d.push v).1 := by
  cases hlook : d.dedup.lookup v with
  | some entry =>
    rw [push_of_some hlook]
    exact h
  | none =>
    rw [push_of_none hlook]
    have henc := encode_apart.1 v d h
    exact (h.insert henc.apart henc.new henc.longer v _).1

theorem Apart.pushAll : ∀ (values : List Value) {d : DataSection}, Apart d →
    Apart (pushAll values d).1
  | [], _, h => h
  | v :: values, _, h => Apart.pushAll values (h.push v)

/-- Two pushed values have one offset only if they are one value. -/
theorem eq_of_offset_eq {values : List Value} {x y : Value × ℕ}
    (hx : x ∈ values.zip (offsets values)) (hy : y ∈ values.zip (offsets values))
    (h : x.2 = y.2) (hlt : x.2 < u32Max) : x.1 = y.1 := by
  have hentries := (pushAll_sound values sound_new).1
  have hapart := Apart.pushAll values (apart_of_empty (d := new) rfl)
  obtain ⟨e, he, hex⟩ := forall₂_of_mem_zip hentries hx
  obtain ⟨e', he', hey⟩ := forall₂_of_mem_zip hentries hy
  exact hapart.injective _ _ e e' he he' (by rw [hex, hey, h]) (by rw [hex]; exact hlt)

theorem offset_eq_of_eq {values : List Value} {x y : Value × ℕ}
    (hx : x ∈ values.zip (offsets values)) (hy : y ∈ values.zip (offsets values))
    (h : x.1 = y.1) : x.2 = y.2 := by
  have hentries := (pushAll_sound values sound_new).1
  obtain ⟨e, he, hex⟩ := forall₂_of_mem_zip hentries hx
  obtain ⟨e', he', hey⟩ := forall₂_of_mem_zip hentries hy
  rw [h, he', Option.some.injEq] at he
  rw [← hex, ← hey, he]

end

end MmdbWriter.DataSection
