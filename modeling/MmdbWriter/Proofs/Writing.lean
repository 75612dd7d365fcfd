import MmdbWriter.Proofs.Section

/-!
# What the encoder writes

Every entry of the dedup table is the place of a complete encoding of its value, and every pointer
leads to such a place before it. Encoding a value keeps this and leaves the value inline at the end
of the section; emitting one leaves it inline or a pointer.
-/

namespace MmdbWriter

open Mmdb (Field)

namespace DataSection

/-- The later section has the earlier one's bytes in front and its entries. -/
structure Grows (d d' : DataSection) : Prop where
  bytes : d.bytes <+: d'.bytes
  lookup : ∀ u entry, d.dedup.lookup u = some entry → d'.dedup.lookup u = some entry

theorem Grows.refl (d : DataSection) : Grows d d := ⟨List.prefix_refl _, fun _ _ h => h⟩

theorem Grows.trans {d d' d'' : DataSection} (h : Grows d d') (h' : Grows d' d'') : Grows d d'' :=
  ⟨h.bytes.trans h'.bytes, fun u entry hu => h'.lookup u entry (h.lookup u entry hu)⟩

theorem Grows.length_le {d d' : DataSection} (h : Grows d d') : d.bytes.length ≤ d'.bytes.length :=
  h.bytes.length_le

theorem grows_append (d : DataSection) (b : List UInt8) : Grows d (d.append b) :=
  ⟨List.prefix_append _ _, fun _ _ h => h⟩

theorem grows_insert (d : DataSection) {v : Value} (h : d.dedup.lookup v = none)
    (entry : DedupEntry) : Grows d { d with dedup := (v, entry) :: d.dedup } := by
  refine ⟨List.prefix_refl _, fun u e hu => ?_⟩
  have huv : (u == v) = false := by
    by_contra hne
    have : u = v := by simpa using hne
    rw [this, h] at hu
    cases hu
  show List.lookup u ((v, entry) :: d.dedup) = some e
  rw [List.lookup_cons, huv]
  exact hu

theorem emitFresh_of_some {f : DataSection → DataSection} {v : Value} {d : DataSection}
    {entry : DedupEntry} (h : (f d).dedup.lookup v = some entry) : d.emitFresh f v = f d := by
  unfold emitFresh
  simp only [h]

theorem emitFresh_of_none {f : DataSection → DataSection} {v : Value} {d : DataSection}
    (h : (f d).dedup.lookup v = none) : d.emitFresh f v =
      { f d with dedup := (v, ⟨d.u32Len, (f d).u32Len - d.u32Len⟩) :: (f d).dedup } := by
  unfold emitFresh
  simp only [h]

theorem emitFresh_bytes {f : DataSection → DataSection} {v : Value} {d : DataSection} :
    (d.emitFresh f v).bytes = (f d).bytes ∧ (d.emitFresh f v).noPointers = (f d).noPointers := by
  cases h : (f d).dedup.lookup v with
  | some _ =>
    rw [emitFresh_of_some h]
    exact ⟨rfl, rfl⟩
  | none =>
    rw [emitFresh_of_none h]
    exact ⟨rfl, rfl⟩

/-- An emission is a pointer to an entry or a fresh encoding. -/
theorem emitInlineWith_cases (f : DataSection → DataSection) (v : Value) (d : DataSection) :
    (∃ entry, d.dedup.lookup v = some entry ∧ pointerBytes entry.offset < entry.len ∧
      d.emitInlineWith f v = d.append (pointerEncoding entry.offset)) ∨
    d.emitInlineWith f v = d.emitFresh f v := by
  unfold emitInlineWith
  split_ifs
  · exact Or.inr rfl
  · cases hlook : d.dedup.lookup v with
    | none => exact Or.inr rfl
    | some entry =>
      dsimp only
      split_ifs with hlong
      · exact Or.inl ⟨entry, rfl, hlong, rfl⟩
      · exact Or.inr rfl

theorem grows_emitFresh {f : DataSection → DataSection} (hf : ∀ d, Grows d (f d)) (v : Value)
    (d : DataSection) : Grows d (d.emitFresh f v) := by
  cases h : (f d).dedup.lookup v with
  | some _ =>
    rw [emitFresh_of_some h]
    exact hf d
  | none =>
    rw [emitFresh_of_none h]
    exact (hf d).trans (grows_insert _ h _)

theorem grows_emitInlineWith {f : DataSection → DataSection} (hf : ∀ d, Grows d (f d)) (v : Value)
    (d : DataSection) : Grows d (d.emitInlineWith f v) := by
  rcases emitInlineWith_cases f v d with ⟨entry, -, -, heq⟩ | heq
  · rw [heq]
    exact grows_append d _
  · rw [heq]
    exact grows_emitFresh hf v d

theorem encode_scalar {v : Value} {x : List UInt8} (hx : scalarEncoding v = some x)
    (d : DataSection) : encode v d = d.append x := by
  cases v <;> simp only [scalarEncoding, Option.some.injEq, reduceCtorEq] at hx <;> subst hx <;>
    simp [encode, append]

theorem emitKey_eq (k : String) (d : DataSection) : d.emitKey k = d.emitInline (.string k) := by
  have h : (fun d : DataSection => d.append (blob .utf8 (strBytes k))) = encode (.string k) :=
    funext fun d => (encode_scalar rfl d).symm
  unfold emitKey emitInline
  rw [h]

theorem grows_encode : (∀ (v : Value) (d : DataSection), Grows d (encode v d)) ∧
    (∀ (items : List Value) (d : DataSection), Grows d (encodeItems items d)) ∧
    ∀ (m : List (String × Value)) (d : DataSection), Grows d (encodeEntries m d) := by
  refine Value.induct ?_ ?_ ?_ ?_ ?_ ?_ ?_
  · intro v x hx d
    rw [encode_scalar hx]
    exact grows_append d x
  · intro m ih d
    rw [encode]
    exact (grows_append d _).trans (ih _)
  · intro items ih d
    rw [encode]
    exact (grows_append d _).trans (ih _)
  · intro d
    rw [encodeItems]
    exact Grows.refl d
  · intro v items ih ih' d
    rw [encodeItems]
    exact (grows_emitInlineWith ih v d).trans (ih' _)
  · intro d
    rw [encodeEntries]
    exact Grows.refl d
  · intro k v m ih ih' d
    rw [encodeEntries]
    exact (grows_emitInlineWith (fun d => grows_append d _) _ d).trans
      ((grows_emitInlineWith ih v _).trans (ih' _))

/-- The complete encoding of a value lies at a place, and its field is among the fields. -/
def Placed (data : List UInt8) (fields : Set Field) (v : Value) (s e : ℕ) : Prop :=
  e ≤ data.length ∧ .value s e ∈ fields ∧ ∃ inner, Inline data v s e inner

/-- The table and the pointers among the fields written so far are sound. An entry holds the place of
its value, cut off at the range of an offset. Past that range its length is zero, so that no pointer
leads there. -/
structure Good (d : DataSection) (fields : Set Field) : Prop where
  entries : ∀ u entry, d.dedup.lookup u = some entry →
    (2 ^ 32 ≤ d.bytes.length ∧ entry = ⟨u32Max, 0⟩) ∨
    ∃ stop, entry.offset + entry.len = min stop u32Max ∧
      Placed d.bytes fields u entry.offset stop
  pointers : ∀ pos target, .pointer pos target ∈ fields →
    target < pos ∧ ∃ stop, stop ≤ pos ∧ .value target stop ∈ fields

theorem Placed.append {data : List UInt8} {fields : Set Field} {v : Value} {s e : ℕ}
    (h : Placed data fields v s e) (b : List UInt8) : Placed (data ++ b) fields v s e := by
  obtain ⟨hle, hmem, inner, hin⟩ := h
  refine ⟨?_, hmem, inner, (inline_append b).1 _ _ _ _ hin⟩
  rw [List.length_append]
  omega

theorem Placed.mono {data : List UInt8} {fields fields' : Set Field} {v : Value} {s e : ℕ}
    (h : Placed data fields v s e) (hsub : fields ⊆ fields') : Placed data fields' v s e :=
  ⟨h.1, hsub h.2.1, h.2.2⟩

theorem Good.append {d : DataSection} {fields : Set Field} (h : Good d fields) (b : List UInt8) :
    Good (d.append b) fields where
  entries u entry hu := by
    rcases h.entries u entry hu with ⟨hlen, hentry⟩ | ⟨stop, hstop, hp⟩
    · refine Or.inl ⟨?_, hentry⟩
      show _ ≤ (d.bytes ++ b).length
      rw [List.length_append]
      omega
    · exact Or.inr ⟨stop, hstop, hp.append b⟩
  pointers := h.pointers

theorem Good.add_values {d : DataSection} {fields fields' : Set Field} (h : Good d fields)
    (hsub : fields ⊆ fields')
    (hnew : ∀ pos target, .pointer pos target ∈ fields' → .pointer pos target ∈ fields) :
    Good d fields' where
  entries u entry hu := by
    rcases h.entries u entry hu with hsat | ⟨stop, hstop, hp⟩
    · exact Or.inl hsat
    · exact Or.inr ⟨stop, hstop, hp.mono hsub⟩
  pointers pos target hp := by
    obtain ⟨hlt, stop, hstop, hmem⟩ := h.pointers pos target (hnew pos target hp)
    exact ⟨hlt, stop, hstop, hsub hmem⟩

/-- The place of a value may be entered as the table holds it. -/
theorem Good.insert {d : DataSection} {fields : Set Field} (h : Good d fields) {v : Value}
    {s e : ℕ} (hle : s ≤ e) (hp : Placed d.bytes fields v s e) :
    Good { d with dedup := (v, ⟨u32FromUsize s, u32FromUsize e - u32FromUsize s⟩) :: d.dedup }
      fields where
  entries u entry hu := by
    have hu : List.lookup u ((v, ⟨u32FromUsize s, u32FromUsize e - u32FromUsize s⟩) :: d.dedup) =
      some entry := hu
    rw [List.lookup_cons] at hu
    by_cases huv : u = v
    · rw [huv, beq_self_eq_true, Option.some.injEq] at hu
      rw [← hu, huv]
      have hlen := hp.1
      unfold u32FromUsize u32Max
      by_cases hs : s < 2 ^ 32
      · refine Or.inr ⟨e, ?_, ?_⟩
        · show min s (2 ^ 32 - 1) + (min e (2 ^ 32 - 1) - min s (2 ^ 32 - 1)) = _
          omega
        · rwa [show min s (2 ^ 32 - 1) = s by omega]
      · refine Or.inl ⟨by show _ ≤ d.bytes.length; omega, ?_⟩
        rw [show min s (2 ^ 32 - 1) = 2 ^ 32 - 1 by omega,
          show min e (2 ^ 32 - 1) = 2 ^ 32 - 1 by omega, Nat.sub_self]
    · rw [beq_false_of_ne huv] at hu
      exact h.entries u entry hu
  pointers := h.pointers

/-- In a section within the range of an offset an entry is the place of its value. -/
theorem Good.entry_of_lt {d : DataSection} {fields : Set Field} (h : Good d fields)
    (hlen : d.bytes.length < 2 ^ 32) {u : Value} {entry : DedupEntry}
    (hu : d.dedup.lookup u = some entry) :
    Placed d.bytes fields u entry.offset (entry.offset + entry.len) := by
  rcases h.entries u entry hu with ⟨hlong, -⟩ | ⟨stop, hstop, hp⟩
  · omega
  · have hle := hp.1
    unfold u32Max at hstop
    rw [show min stop (2 ^ 32 - 1) = stop by omega] at hstop
    rwa [hstop]

/-- What a step leaves: the fields it adds and its bytes at the end of the section. -/
def Leaves (d d' : DataSection) (fields : Set Field) (P : ℕ → ℕ → List Field → Prop) : Prop :=
  ∃ new, P d.bytes.length d'.bytes.length new ∧ Good d' (fields ∪ {x | x ∈ new})

theorem emitFresh_leaves {f : DataSection → DataSection} {v : Value} {d : DataSection}
    {fields : Set Field} (hg : Grows d (f d))
    (hmem : ∀ s e new, Inline (f d).bytes v s e new → .value s e ∈ new)
    (h : Leaves d (f d) fields (Inline (f d).bytes v)) :
    Leaves d (d.emitFresh f v) fields (Inline (d.emitFresh f v).bytes v) := by
  obtain ⟨new, hin, hgood⟩ := h
  cases hlook : (f d).dedup.lookup v with
  | some _ =>
    rw [emitFresh_of_some hlook]
    exact ⟨new, hin, hgood⟩
  | none =>
    rw [emitFresh_of_none hlook]
    exact ⟨new, hin, hgood.insert hg.length_le
      ⟨le_rfl, Or.inr (hmem _ _ _ hin), new, hin⟩⟩

theorem inline_value_mem {data : List UInt8} {v : Value} {s e : ℕ} {fields : List Field}
    (h : Inline data v s e fields) : .value s e ∈ fields := by
  cases hx : scalarEncoding v with
  | some x =>
    rw [((inline_scalar hx).mp h).2]
    exact List.mem_singleton_self _
  | none =>
    cases v <;> simp only [scalarEncoding, reduceCtorEq] at hx <;> rw [Inline] at h <;>
      obtain ⟨_, _, _, _, rfl⟩ := h <;> exact List.mem_cons_self

/-- Emitting a value leaves it inline or a pointer to it. -/
theorem emitInlineWith_leaves {f : DataSection → DataSection} {v : Value} {d : DataSection}
    {fields : Set Field} (hg : Grows d (f d)) (hgood : Good d fields)
    (h : Leaves d (f d) fields (Inline (f d).bytes v)) :
    Leaves d (d.emitInlineWith f v) fields
      (SlotOf (d.emitInlineWith f v).bytes (Inline (d.emitInlineWith f v).bytes v)) := by
  rcases emitInlineWith_cases f v d with ⟨entry, hlook, hlong, heq⟩ | heq
  · rcases hgood.entries v entry hlook with ⟨-, hsat⟩ | ⟨stop, hstop, hle, hmem, inner, hin⟩
    · rw [hsat] at hlong
      exact absurd hlong (Nat.not_lt_zero _)
    have hmin := min_le_left stop u32Max
    have hmax : entry.offset + entry.len ≤ u32Max := hstop ▸ min_le_right stop u32Max
    unfold u32Max at hmax
    rw [heq]
    refine ⟨[.pointer d.bytes.length entry.offset], Or.inr ⟨entry.offset, stop, inner,
      (inline_append _).1 _ _ _ _ hin, by omega, hle, by omega, slice_append _ _, rfl⟩, ?_⟩
    refine ⟨fun u e hu => ?_, fun pos target hp => ?_⟩
    · rcases (hgood.append (pointerEncoding entry.offset)).entries u e hu with
        hsat | ⟨stop', hstop', hp⟩
      · exact Or.inl hsat
      · exact Or.inr ⟨stop', hstop', hp.mono fun _ => Or.inl⟩
    · rcases hp with hp | hp
      · obtain ⟨hlt, stop', hstop', hmem'⟩ := hgood.pointers pos target hp
        exact ⟨hlt, stop', hstop', Or.inl hmem'⟩
      · have hp : Field.pointer pos target ∈ [Field.pointer d.bytes.length entry.offset] := hp
        rw [List.mem_singleton, Field.pointer.injEq] at hp
        obtain ⟨rfl, rfl⟩ := hp
        exact ⟨by omega, stop, hle, Or.inl hmem⟩
  · rw [heq]
    obtain ⟨new, hin, hgood'⟩ := emitFresh_leaves hg (fun _ _ _ => inline_value_mem) h
    exact ⟨new, Or.inl hin, hgood'⟩

theorem union_append {fields : Set Field} {new new' : List Field} :
    fields ∪ {x | x ∈ new} ∪ {x | x ∈ new'} = fields ∪ {x | x ∈ new ++ new'} := by
  ext x
  simp only [Set.mem_union, Set.mem_ofPred_eq, List.mem_append, or_assoc]

/-- The fields of a container's content are all its new pointers. -/
theorem Good.container {d : DataSection} {fields : Set Field} {inner : List Field} {s e : ℕ}
    (h : Good d (fields ∪ {x | x ∈ inner})) :
    Good d (fields ∪ {x | x ∈ Field.value s e :: inner}) := by
  refine h.add_values ?_ ?_
  · rintro x (hx | hx)
    · exact Or.inl hx
    · exact Or.inr (List.mem_cons_of_mem _ hx)
  · rintro pos target (hp | hp)
    · exact Or.inl hp
    · rcases List.mem_cons.mp hp with hp | hp
      · cases hp
      · exact Or.inr hp

theorem encode_scalar_leaves {v : Value} {x : List UInt8} (hx : scalarEncoding v = some x)
    {d : DataSection} {fields : Set Field} (hgood : Good d fields) :
    Leaves d (encode v d) fields (Inline (encode v d).bytes v) := by
  rw [encode_scalar hx]
  refine ⟨[.value d.bytes.length (d.append x).bytes.length],
    (inline_scalar hx).mpr ⟨slice_append _ _, rfl⟩, (hgood.append x).add_values ?_ ?_⟩
  · exact fun f hf => Or.inl hf
  · rintro pos target (hp | hp)
    · exact hp
    · cases List.mem_singleton.mp hp

/-- Encoding a value leaves it inline at the end of the section. -/
theorem encode_leaves :
    (∀ (v : Value) (d : DataSection) (fields : Set Field), Good d fields →
      Leaves d (encode v d) fields (Inline (encode v d).bytes v)) ∧
    (∀ (items : List Value) (d : DataSection) (fields : Set Field), Good d fields →
      Leaves d (encodeItems items d) fields (ItemsAt (encodeItems items d).bytes items)) ∧
    ∀ (m : List (String × Value)) (d : DataSection) (fields : Set Field), Good d fields →
      Leaves d (encodeEntries m d) fields (EntriesAt (encodeEntries m d).bytes m) := by
  have hheader : ∀ (d d' : DataSection) (b : List UInt8), Grows (d.append b) d' →
      Slice d'.bytes d.bytes.length (d.append b).bytes.length b := by
    rintro d d' b hg
    obtain ⟨more, hmore⟩ := hg.bytes
    rw [← hmore]
    exact (slice_append d.bytes b).append more
  refine Value.induct ?_ ?_ ?_ ?_ ?_ ?_ ?_
  · exact fun v x hx d fields hgood => encode_scalar_leaves hx hgood
  · intro m ih d fields hgood
    rw [encode]
    obtain ⟨inner, hin, hgood'⟩ := ih _ _ (hgood.append _)
    refine ⟨.value d.bytes.length
      (encodeEntries m (d.append (controlByte .map m.length))).bytes.length :: inner, ?_,
      hgood'.container⟩
    rw [Inline]
    exact ⟨_, inner, hheader _ _ _ (grows_encode.2.2 _ _), hin, rfl⟩
  · intro items ih d fields hgood
    rw [encode]
    obtain ⟨inner, hin, hgood'⟩ := ih _ _ (hgood.append _)
    refine ⟨.value d.bytes.length
      (encodeItems items (d.append (extendedHeader .array items.length))).bytes.length :: inner, ?_,
      hgood'.container⟩
    rw [Inline]
    exact ⟨_, inner, hheader _ _ _ (grows_encode.2.1 _ _), hin, rfl⟩
  · intro d fields hgood
    rw [encodeItems]
    refine ⟨[], by rw [ItemsAt]; exact ⟨rfl, rfl⟩, ?_⟩
    simpa using hgood
  · intro v items ih ih' d fields hgood
    rw [encodeItems]
    have hg := grows_encode.2.1 items (d.emitInlineWith (encode v) v)
    obtain ⟨f₁, hslot, hgood₁⟩ := emitInlineWith_leaves (grows_encode.1 v d) hgood
      (ih d fields hgood)
    obtain ⟨f₂, hitems, hgood₂⟩ := ih' _ _ hgood₁
    rw [union_append] at hgood₂
    obtain ⟨more, hmore⟩ := hg.bytes
    refine ⟨f₁ ++ f₂, ?_, hgood₂⟩
    rw [ItemsAt]
    refine ⟨_, f₁, f₂, ?_, hitems, rfl⟩
    rw [← hmore]
    exact hslot.append more ((inline_append more).1 v _ _ _)
  · intro d fields hgood
    rw [encodeEntries]
    refine ⟨[], by rw [EntriesAt]; exact ⟨rfl, rfl⟩, ?_⟩
    simpa using hgood
  · intro k v m ih ih' d fields hgood
    rw [encodeEntries, emitKey_eq]
    have hg := grows_encode.2.2 m ((d.emitInline (.string k)).emitInlineWith (encode v) v)
    have hg₂ := grows_emitInlineWith (grows_encode.1 v) v (d.emitInline (.string k))
    obtain ⟨f₁, hkey, hgood₁⟩ := emitInlineWith_leaves (grows_encode.1 (.string k) d) hgood
      (encode_scalar_leaves rfl hgood)
    obtain ⟨f₂, hslot, hgood₂⟩ := emitInlineWith_leaves (grows_encode.1 v _) hgood₁ (ih _ _ hgood₁)
    obtain ⟨f₃, hm, hgood₃⟩ := ih' _ _ hgood₂
    rw [union_append, union_append] at hgood₃
    obtain ⟨more, hmore⟩ := hg.bytes
    obtain ⟨more', hmore'⟩ := (hg₂.trans hg).bytes
    refine ⟨f₁ ++ (f₂ ++ f₃), ?_, hgood₃⟩
    rw [EntriesAt]
    refine ⟨(d.emitInline (.string k)).bytes.length, _, f₁, f₂, f₃, ?_, ?_, hm, rfl⟩
    · rw [← hmore']
      refine SlotOf.append (P := Inline _ (.string k)) hkey more' fun h => ?_
      exact (inline_scalar (v := .string k) rfl).mp ((inline_append more').1 _ _ _ _ h)
    · rw [← hmore]
      exact SlotOf.append hslot more ((inline_append more).1 v _ _ _)

end DataSection

end MmdbWriter
