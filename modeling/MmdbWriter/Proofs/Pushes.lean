import MmdbWriter.Proofs.Decoding
import MmdbWriter.Proofs.Writing

/-!
# A section of pushed values

Values pushed one after the other onto an empty section lie in it one after the other, each where it
was first complete, and the offset of a push is the one in the dedup table. So the offsets decode to
the values, except for those that hold an array with a misread header.
-/

namespace MmdbWriter

open Mmdb (Field Decodes PointerSafe Scans scanItems scan)
open Value (SizeOk HeaderOk All)

theorem Inline.decodes {data : List UInt8} {v : Value} {s e : ℕ} {fields : List Field}
    (h : Inline data v s e fields) (hh : All HeaderOk v) (hs : All SizeOk v) : Decodes data s v := by
  obtain ⟨n, hn⟩ := readsAt_inline.1 v hh hs s e fields h
  exact ⟨n, _, hn n le_rfl⟩

namespace DataSection

/-- Push the values in a row: the section they leave, and their offsets. -/
def pushAll : List Value → DataSection → DataSection × List ℕ
  | [], d => (d, [])
  | v :: values, d =>
    ((pushAll values (d.push v).1).1, (d.push v).2 :: (pushAll values (d.push v).1).2)

/-- The section of the values. -/
def ofValues (values : List Value) : DataSection := (pushAll values new).1

/-- The offsets of the values in their section. -/
def offsets (values : List Value) : List ℕ := (pushAll values new).2

/-- A reader finds the values: at the offset of each, as soon as it is pushed and after every later
push, equal offsets for equal values only, and no pointer but to a complete value before it. -/
structure Readable (values : List Value) : Prop where
  decodes : ∀ front, front <+: values →
    List.Forall₂ (fun v offset => Decodes (ofValues front).bytes offset v) front (offsets front)
  offsets : ∀ x ∈ values.zip (offsets values), ∀ y ∈ values.zip (offsets values),
    x.2 = y.2 ↔ x.1 = y.1
  pointers : PointerSafe (ofValues values).bytes

/-- The section between two pushes: the values at its top level, and the fields of them all. -/
structure Sound (d : DataSection) (tops : List Value) (fields : List Field) : Prop where
  good : d.Good {x | x ∈ fields}
  items : ItemsAt d.bytes tops 0 d.bytes.length fields

theorem sound_empty {d : DataSection} (hb : d.bytes = []) (hd : d.dedup = []) : Sound d [] [] where
  good := ⟨fun _ _ h => (by rw [hd] at h; cases h), fun _ _ h => (by cases h)⟩
  items := by
    rw [ItemsAt, hb]
    exact ⟨rfl, rfl⟩

theorem sound_new : Sound new [] [] := sound_empty rfl rfl

theorem itemsAt_snoc {data : List UInt8} {v : Value} {m e : ℕ} {f₂ : List Field}
    (hv : SlotOf data (Inline data v) m e f₂) : ∀ (items : List Value) {s : ℕ} {f₁ : List Field},
    ItemsAt data items s m f₁ → ItemsAt data (items ++ [v]) s e (f₁ ++ f₂)
  | [], s, f₁, h => by
    rw [ItemsAt] at h
    obtain ⟨rfl, rfl⟩ := h
    rw [List.nil_append, ItemsAt]
    refine ⟨e, f₂, [], hv, ?_, by simp⟩
    rw [ItemsAt]
    exact ⟨rfl, rfl⟩
  | u :: items, s, f₁, h => by
    rw [ItemsAt] at h
    obtain ⟨m', g₁, g₂, hu, hitems, rfl⟩ := h
    rw [List.cons_append, ItemsAt]
    exact ⟨m', g₁, g₂ ++ f₂, hu, itemsAt_snoc hv items hitems, by simp⟩

section Push

variable {d : DataSection} {v : Value}

theorem push_of_some {entry : DedupEntry} (h : d.dedup.lookup v = some entry) :
    d.push v = (d, entry.offset) := by
  unfold push
  simp only [h]

theorem push_of_none (h : d.dedup.lookup v = none) : d.push v =
    ({ encode v d with
      dedup := (v, ⟨d.u32Len, (encode v d).u32Len - d.u32Len⟩) :: (encode v d).dedup },
      d.u32Len) := by
  unfold push
  simp only [h]

theorem grows_push (d : DataSection) (v : Value) : Grows d (d.push v).1 := by
  have henc := grows_encode.1 v d
  cases h : d.dedup.lookup v with
  | some entry =>
    rw [push_of_some h]
    exact Grows.refl d
  | none =>
    rw [push_of_none h]
    refine ⟨henc.bytes, fun u entry hu => ?_⟩
    have huv : (u == v) = false := by
      by_contra hne
      have : u = v := by simpa using hne
      rw [this, h] at hu
      cases hu
    show List.lookup u (_ :: (encode v d).dedup) = some entry
    rw [List.lookup_cons, huv]
    exact henc.lookup u entry hu

/-- A pushed value has an entry with its offset, and is at the top level if it is new. -/
theorem push_sound {tops : List Value} {fields : List Field} (h : Sound d tops fields) :
    (∃ entry, (d.push v).1.dedup.lookup v = some entry ∧ entry.offset = (d.push v).2) ∧
      ∃ more fields', (∀ u ∈ more, u = v) ∧ Sound (d.push v).1 (tops ++ more) fields' := by
  cases hlook : d.dedup.lookup v with
  | some entry =>
    rw [push_of_some hlook]
    exact ⟨⟨entry, hlook, rfl⟩, [], fields, by simp, by simpa using h⟩
  | none =>
    rw [push_of_none hlook]
    have hg := grows_encode.1 v d
    obtain ⟨new, hin, hgood⟩ := encode_leaves.1 v d _ h.good
    have hfields : ({x | x ∈ fields} ∪ {x | x ∈ new} : Set Field) = {x | x ∈ fields ++ new} := by
      ext x
      simp
    rw [hfields] at hgood
    refine ⟨⟨_, by rw [List.lookup_cons, beq_self_eq_true], rfl⟩, [v], fields ++ new, by simp,
      hgood.insert hg.length_le ⟨le_rfl, ?_, new, hin⟩, ?_⟩
    · exact List.mem_append_right _ (inline_value_mem hin)
    · obtain ⟨more, hmore⟩ := hg.bytes
      have hitems := (inline_append more).2.1 _ _ _ _ h.items
      rw [hmore] at hitems
      exact itemsAt_snoc (Or.inl hin) tops hitems

end Push

theorem grows_pushAll : ∀ (values : List Value) (d : DataSection), Grows d (pushAll values d).1
  | [], d => Grows.refl d
  | v :: values, d => (grows_push d v).trans (grows_pushAll values _)

theorem pushAll_sound : ∀ (values : List Value) {d : DataSection} {tops : List Value}
    {fields : List Field}, Sound d tops fields →
    List.Forall₂ (fun v offset => ∃ entry, (pushAll values d).1.dedup.lookup v = some entry ∧
      entry.offset = offset) values (pushAll values d).2 ∧
    ∃ more fields', (∀ u ∈ more, u ∈ values) ∧ Sound (pushAll values d).1 (tops ++ more) fields'
  | [], d, tops, fields, h => ⟨.nil, [], fields, by simp, by rwa [List.append_nil]⟩
  | v :: values, d, tops, fields, h => by
    have hg := grows_pushAll values (d.push v).1
    obtain ⟨⟨entry, hentry, hoff⟩, new, fields', hnew, hsound⟩ := push_sound (v := v) h
    obtain ⟨hall, more, fields'', hmore, hsound⟩ := pushAll_sound values hsound
    refine ⟨.cons ⟨entry, hg.lookup v entry hentry, hoff⟩ hall, new ++ more, fields'', ?_, ?_⟩
    · intro u hu
      rcases List.mem_append.mp hu with hu | hu
      · rw [hnew u hu]
        exact List.mem_cons_self
      · exact List.mem_cons_of_mem _ (hmore u hu)
    · rw [← List.append_assoc]
      exact hsound

theorem length_pushAll : ∀ (values : List Value) (d : DataSection),
    (pushAll values d).2.length = values.length
  | [], _ => rfl
  | v :: values, d => by rw [pushAll, List.length_cons, List.length_cons, length_pushAll values]

theorem pushAll_append : ∀ (front back : List Value) (d : DataSection),
    (pushAll (front ++ back) d).1 = (pushAll back (pushAll front d).1).1
  | [], _, _ => rfl
  | _ :: front, back, _ => pushAll_append front back _

/-- What the offsets of the values pushed onto an empty section are. -/
theorem pushAll_spec {values : List Value} {d : DataSection} (hd : Sound d [] [])
    (hlen : (pushAll values d).1.bytes.length < 2 ^ 32) :
    ∃ tops fields, (∀ u ∈ tops, u ∈ values) ∧ Sound (pushAll values d).1 tops fields ∧
      List.Forall₂ (fun v offset => ∃ entry, (pushAll values d).1.dedup.lookup v = some entry ∧
        entry.offset = offset) values (pushAll values d).2 ∧
      List.Forall₂ (fun v offset => ∃ stop inner,
        Inline (pushAll values d).1.bytes v offset stop inner) values (pushAll values d).2 := by
  obtain ⟨hall, tops, fields, htops, hsound⟩ := pushAll_sound values hd
  refine ⟨tops, fields, htops, hsound, hall, hall.imp fun v offset hv => ?_⟩
  obtain ⟨entry, hentry, rfl⟩ := hv
  obtain ⟨-, -, inner, hin⟩ := hsound.good.entry_of_lt hlen hentry
  exact ⟨_, inner, hin⟩

/-- In a section of any length an offset that is not cut off is the place of its value. -/
theorem inline_offset {values : List Value} {d : DataSection} (hd : Sound d [] []) {v : Value}
    {offset : ℕ} (hmem : (v, offset) ∈ values.zip (pushAll values d).2) (hoff : offset ≠ u32Max) :
    ∃ stop inner, Inline (pushAll values d).1.bytes v offset stop inner := by
  obtain ⟨hall, tops, fields, -, hsound⟩ := pushAll_sound values hd
  obtain ⟨entry, hentry, rfl⟩ := (List.forall₂_iff_zip.mp hall).2 hmem
  rcases hsound.good.entries v entry hentry with ⟨-, rfl⟩ | ⟨stop, -, -, -, inner, hin⟩
  · exact absurd rfl hoff
  · exact ⟨stop, inner, hin⟩

theorem ofValues_spec {values : List Value} (hlen : (ofValues values).bytes.length < 2 ^ 32) :
    ∃ tops fields, (∀ u ∈ tops, u ∈ values) ∧ Sound (ofValues values) tops fields ∧
      List.Forall₂ (fun v offset => ∃ entry, (ofValues values).dedup.lookup v = some entry ∧
        entry.offset = offset) values (offsets values) ∧
      List.Forall₂ (fun v offset => ∃ stop inner, Inline (ofValues values).bytes v offset stop inner)
        values (offsets values) :=
  pushAll_spec sound_new hlen

theorem exists_mem_zip {α β : Type} {R : α → β → Prop} {a : α} :
    ∀ {l : List α} {l' : List β}, List.Forall₂ R l l' → a ∈ l → ∃ b, (a, b) ∈ l.zip l' ∧ R a b
  | _ :: _, _ :: _, .cons h hall, ha => by
    rcases List.mem_cons.mp ha with rfl | ha
    · exact ⟨_, List.mem_cons_self, h⟩
    · obtain ⟨b, hb, hR⟩ := exists_mem_zip hall ha
      exact ⟨b, List.mem_cons_of_mem _ hb, hR⟩

theorem forall₂_zip_right {α β γ : Type} {R : α → β → Prop} {l : List α} {l' : List β}
    (h : List.Forall₂ R l l') : ∀ {l'' : List γ}, l''.length = l'.length →
    List.Forall₂ (fun a c => ∃ b, R a b ∧ (b, c) ∈ l'.zip l'') l l'' := by
  induction h with
  | nil =>
    intro l'' hlen
    rw [List.length_eq_zero_iff.mp hlen]
    exact .nil
  | @cons a b l l' hab _ ih =>
    rintro (_ | ⟨c, l''⟩) hlen
    · cases hlen
    · refine .cons ⟨b, hab, List.mem_cons_self⟩ ((ih (by simpa using hlen)).imp ?_)
      rintro a' c' ⟨b', hR, hmem⟩
      exact ⟨b', hR, List.mem_cons_of_mem _ hmem⟩

theorem forall₂_of_mem_zip {α β : Type} {R : α → β → Prop} {l : List α} {l' : List β}
    (h : List.Forall₂ R l l') {x : α × β} (hx : x ∈ l.zip l') : R x.1 x.2 :=
  (List.forall₂_iff_zip.mp h).2 hx

theorem allArray_of_mem {P : Value → Prop} : ∀ {items : List Value}, (∀ v ∈ items, All P v) →
    Value.AllArray P items
  | [], _ => trivial
  | _ :: _, h =>
    ⟨h _ List.mem_cons_self, allArray_of_mem fun v hv => h v (List.mem_cons_of_mem _ hv)⟩

section Readable

variable {values : List Value}

/-- A value with a misread header is not found. -/
theorem Readable.headerOk (h : Readable values) (hsize : ∀ v ∈ values, All SizeOk v)
    (hlen : (ofValues values).bytes.length < 2 ^ 32) : ∀ v ∈ values, All HeaderOk v := by
  intro v hv
  by_contra hh
  obtain ⟨-, -, -, -, -, hinline⟩ := ofValues_spec hlen
  obtain ⟨offset, hmem, stop, inner, hin⟩ := exists_mem_zip hinline hv
  obtain ⟨fuel, rest, hd⟩ := forall₂_of_mem_zip (h.decodes values (List.prefix_refl _)) hmem
  exact misreadAt_inline.1 v hh (hsize v hv) _ _ _ hin fuel rest hd

theorem decodes_pushAll {d : DataSection} (hd : Sound d [] []) (hh : ∀ v ∈ values, All HeaderOk v)
    (hsize : ∀ v ∈ values, All SizeOk v) (hlen : (pushAll values d).1.bytes.length < 2 ^ 32) :
    List.Forall₂ (fun v offset => Decodes (pushAll values d).1.bytes offset v) values
      (pushAll values d).2 := by
  obtain ⟨-, -, -, -, -, hinline⟩ := pushAll_spec hd hlen
  refine List.forall₂_iff_zip.mpr ⟨hinline.length_eq, fun {v offset} hmem => ?_⟩
  have hv := (List.of_mem_zip hmem).1
  obtain ⟨stop, inner, hin⟩ := forall₂_of_mem_zip hinline hmem
  exact hin.decodes (hh v hv) (hsize v hv)

theorem decodes_offsets (hh : ∀ v ∈ values, All HeaderOk v) (hsize : ∀ v ∈ values, All SizeOk v)
    (hlen : (ofValues values).bytes.length < 2 ^ 32) :
    List.Forall₂ (fun v offset => Decodes (ofValues values).bytes offset v) values
      (offsets values) :=
  decodes_pushAll sound_new hh hsize hlen

/-- The offset of a value is the one in the table, and what is decoded there is the value. -/
theorem offset_eq_iff (hh : ∀ v ∈ values, All HeaderOk v) (hsize : ∀ v ∈ values, All SizeOk v)
    (hlen : (ofValues values).bytes.length < 2 ^ 32) {x y : Value × ℕ}
    (hx : x ∈ values.zip (offsets values)) (hy : y ∈ values.zip (offsets values)) :
    x.2 = y.2 ↔ x.1 = y.1 := by
  obtain ⟨-, -, -, -, hentries, -⟩ := ofValues_spec hlen
  have hdec := decodes_offsets hh hsize hlen
  constructor
  · intro h
    obtain ⟨_, _, hd⟩ := forall₂_of_mem_zip hdec hx
    obtain ⟨_, _, hd'⟩ := forall₂_of_mem_zip hdec hy
    rw [h] at hd
    exact (Prod.mk.inj (decode_unique hd hd')).1
  · intro h
    obtain ⟨entry, hentry, hoff⟩ := forall₂_of_mem_zip hentries hx
    obtain ⟨entry', hentry', hoff'⟩ := forall₂_of_mem_zip hentries hy
    rw [h, hentry', Option.some.injEq] at hentry
    rw [← hoff, ← hoff', hentry]

theorem pointerSafe_ofValues (hh : ∀ v ∈ values, All HeaderOk v)
    (hsize : ∀ v ∈ values, All SizeOk v) (hlen : (ofValues values).bytes.length < 2 ^ 32) :
    PointerSafe (ofValues values).bytes := by
  obtain ⟨tops, fields, htops, hsound, -, -⟩ := ofValues_spec hlen
  obtain ⟨n, hn⟩ := scansAt_inline.2.1 tops (allArray_of_mem fun u hu => hh u (htops u hu))
    (allArray_of_mem fun u hu => hsize u (htops u hu)) _ _ _ hsound.items
  have hscan := hn n le_rfl
  rw [List.drop_length, List.drop_zero] at hscan
  exact ⟨fields, ⟨n, tops.length, hscan⟩, hsound.good.pointers⟩

/-- A section is read back exactly when no array in its values has a misread header. -/
theorem readable_iff (hsize : ∀ v ∈ values, All SizeOk v)
    (hlen : (ofValues values).bytes.length < 2 ^ 32) :
    Readable values ↔ ∀ v ∈ values, All HeaderOk v := by
  refine ⟨fun h => h.headerOk hsize hlen, fun hh => ⟨?_, ?_, ?_⟩⟩
  · rintro front ⟨back, rfl⟩
    have hfront : (ofValues front).bytes.length < 2 ^ 32 := by
      have hle := (grows_pushAll back (ofValues front)).length_le
      rw [ofValues, pushAll_append] at hlen
      exact lt_of_le_of_lt hle hlen
    exact decodes_offsets (fun v hv => hh v (List.mem_append_left back hv))
      (fun v hv => hsize v (List.mem_append_left back hv)) hfront
  · exact fun x hx y hy => offset_eq_iff hh hsize hlen hx hy
  · exact pointerSafe_ofValues hh hsize hlen

theorem readable_city : Readable [.map [("city", .string "Oslo"), ("ids", .array [.u16 7, .u32 0])],
    .string "Oslo"] :=
  (readable_iff (by decide +kernel) (by decide +kernel)).mpr (by decide +kernel)

/-- The size of an array of 29 items is written before its type. -/
theorem not_readable_array :
    (∀ v ∈ [Value.array (List.replicate 29 (.bool true))], All SizeOk v) ∧
      (ofValues [Value.array (List.replicate 29 (.bool true))]).bytes.length < 2 ^ 32 ∧
      ¬ Readable [Value.array (List.replicate 29 (.bool true))] := by
  refine ⟨by decide +kernel, by decide +kernel, fun h => ?_⟩
  have hok := h.headerOk (by decide +kernel) (by decide +kernel)
  revert hok
  decide +kernel

end Readable

end DataSection

end MmdbWriter
