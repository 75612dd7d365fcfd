import MmdbWriter.Proofs.Fields
import MmdbWriter.Proofs.MarkerFree
import MmdbWriter.Proofs.Pushes

/-!
# The last marker of a file

The metadata is its values emitted in a row. What an emission adds is text, a number with the key
behind it, or the header of the descriptions with the key before it. So no marker starts after the one
that announces the metadata.
-/

namespace MmdbWriter

open Writer (metadataMarker)

namespace DataSection

/-- The entries of the table lie below `k`. -/
def Low (k : ℕ) (d : DataSection) : Prop :=
  ∀ u entry, d.dedup.lookup u = some entry → entry.offset < k

/-- The later section has bytes with `P` behind the earlier one's, and its entries lie below `k`. -/
def Adds (k : ℕ) (P : List UInt8 → Prop) (d d' : DataSection) : Prop :=
  ∃ y, d'.bytes = d.bytes ++ y ∧ P y ∧ Low k d'

section Emission

variable {d d' d'' : DataSection} {f : DataSection → DataSection} {v : Value} {k k' : ℕ}
  {P Q R : List UInt8 → Prop}

theorem Low.mono (h : Low k d) (hk : k ≤ k') : Low k' d := fun u entry hu =>
  lt_of_lt_of_le (h u entry hu) hk

theorem Adds.low (h : Adds k P d d') : Low k d' := by
  obtain ⟨-, -, -, hlow⟩ := h
  exact hlow

theorem Adds.mono (h : Adds k P d d') (hPQ : ∀ y, P y → Q y) : Adds k Q d d' := by
  obtain ⟨y, hb, hy, hlow⟩ := h
  exact ⟨y, hb, hPQ y hy, hlow⟩

theorem Adds.trans (h : Adds k P d d') (h' : Adds k' Q d' d'')
    (hR : ∀ x y, P x → Q y → R (x ++ y)) : Adds k' R d d'' := by
  obtain ⟨x, hb, hx, -⟩ := h
  obtain ⟨y, hb', hy, hlow⟩ := h'
  exact ⟨x ++ y, by rw [hb', hb, List.append_assoc], hR x y hx hy, hlow⟩

theorem low_emitFresh (h : Low k (f d)) (hlen : d.bytes.length < k) : Low k (d.emitFresh f v) := by
  cases hlook : (f d).dedup.lookup v with
  | some _ =>
    rw [emitFresh_of_some hlook]
    exact h
  | none =>
    rw [emitFresh_of_none hlook]
    intro u entry hu
    have hu : List.lookup u ((v, ⟨d.u32Len, _⟩) :: (f d).dedup) = some entry := hu
    rw [List.lookup_cons] at hu
    by_cases huv : u = v
    · rw [huv, beq_self_eq_true, Option.some.injEq] at hu
      rw [← hu]
      exact lt_of_le_of_lt (min_le_left _ _) hlen
    · rw [beq_false_of_ne huv] at hu
      exact h u entry hu

/-- An emission adds what the encoding adds, or a pointer to an entry. -/
theorem adds_emitInlineWith (hlow : Low k d) (hk : k ≤ k') (hlen : d.bytes.length < k')
    (h : (d.emitInlineWith f v).bytes = (f d).bytes → Adds k' P d (f d)) :
    Adds k' (fun y => P y ∨ ∃ o < k, y = pointerEncoding o) d (d.emitInlineWith f v) := by
  rcases emitInlineWith_cases f v d with ⟨entry, hlook, -, heq⟩ | heq
  · rw [heq]
    exact ⟨_, rfl, Or.inr ⟨_, hlow v entry hlook, rfl⟩, hlow.mono hk⟩
  · rw [heq] at h ⊢
    obtain ⟨y, hb, hy, hlow'⟩ := h emitFresh_bytes.1
    exact ⟨y, by rw [emitFresh_bytes.1, hb], Or.inl hy, low_emitFresh hlow' hlen⟩

theorem adds_scalar {x : List UInt8} (hx : scalarEncoding v = some x) (hlow : Low k d)
    (hk : k ≤ k') (hlen : d.bytes.length < k') :
    Adds k' (fun y => y = x ∨ ∃ o < k, y = pointerEncoding o) d (d.emitInline v) := by
  refine adds_emitInlineWith hlow hk hlen fun _ => ⟨x, ?_, rfl, ?_⟩
  · rw [encode_scalar hx]
    rfl
  · rw [encode_scalar hx]
    exact hlow.mono hk

theorem length_le_emitInline (v : Value) (d : DataSection) :
    d.bytes.length ≤ (d.emitInline v).bytes.length :=
  (grows_emitInlineWith (grows_encode.1 v) v d).length_le

theorem length_le_encodeItems (items : List Value) (d : DataSection) :
    d.bytes.length ≤ (encodeItems items d).bytes.length := (grows_encode.2.1 items d).length_le

theorem encodeItems_cons (v : Value) (items : List Value) (d : DataSection) :
    encodeItems (v :: items) d = encodeItems items (d.emitInline v) := by
  rw [encodeItems]
  rfl

theorem encodeEntries_eq (m : List (String × Value)) : ∀ d : DataSection,
    encodeEntries m d = encodeItems (m.flatMap fun e => [.string e.1, e.2]) d := by
  induction m with
  | nil => exact fun d => by rw [encodeEntries, List.flatMap_nil, encodeItems]
  | cons e m ih =>
    intro d
    rw [encodeEntries, List.flatMap_cons, List.cons_append, List.singleton_append, encodeItems_cons,
      encodeItems_cons, ih, emitKey_eq]
    rfl

end Emission

section Windowed

variable {d : DataSection} {v : Value} {x : List UInt8} {k : ℕ}

/-- The end of the window in which readers search for the metadata. -/
def window : ℕ := 128 * 1024

theorem text_pointer_of {y : List UInt8} (h : ∃ o < k, y = pointerEncoding o) (hk : k ≤ window) :
    Text y ∧ 1 ≤ y.length := by
  obtain ⟨o, ho, rfl⟩ := h
  have ho : o < 131072 := lt_of_lt_of_le ho hk
  obtain ⟨c, x, -, -, heq, -⟩ := pointerEncoding_eq ho
  refine ⟨text_pointer ho, ?_⟩
  rw [heq, List.length_cons]
  omega

/-- A value whose encoding is text adds text. -/
theorem adds_text (hx : scalarEncoding v = some x) (htext : Text x) (hlow : Low k d)
    (hk : k ≤ window) (hlen : d.bytes.length < k) : Adds k Text d (d.emitInline v) := by
  refine (adds_scalar hx hlow le_rfl hlen).mono fun y hy => ?_
  rcases hy with rfl | hy
  · exact htext
  · exact (text_pointer_of hy hk).1

theorem adds_texts (hk : k ≤ window) : ∀ (vs : List Value) {d : DataSection},
    (∀ v ∈ vs, ∃ x, scalarEncoding v = some x ∧ Text x) → Low k d →
    (encodeItems vs d).bytes.length < k → Adds k Text d (encodeItems vs d)
  | [], d, _, hlow, _ => by
    rw [encodeItems]
    exact ⟨[], by simp, text_nil, hlow⟩
  | v :: vs, d, h, hlow, hend => by
    obtain ⟨x, hx, htext⟩ := h v List.mem_cons_self
    rw [encodeItems_cons] at hend ⊢
    have hle := length_le_encodeItems vs (d.emitInline v)
    have hle' := length_le_emitInline v d
    have hstep := adds_text hx htext hlow hk (by omega)
    have ih := adds_texts hk vs (fun u hu => h u (List.mem_cons_of_mem _ hu)) hstep.low hend
    exact hstep.trans ih fun a b ha hb => ha.append hb

theorem adds_string (s : String) (hlow : Low k d) (hk : k ≤ window) (hlen : d.bytes.length < k)
    (hend : (d.emitInline (.string s)).bytes.length < window) :
    Adds k (fun y => Text y ∧ 1 ≤ y.length) d (d.emitInline (.string s)) := by
  obtain ⟨y, hb, hy, hlow'⟩ := adds_scalar (v := .string s) rfl hlow le_rfl hlen
  refine ⟨y, hb, ?_, hlow'⟩
  rcases hy with rfl | hy
  · rw [hb, List.length_append] at hend
    have hblob : (blob .utf8 (strBytes s)).length =
        (controlByte .utf8 (strBytes s).length).length + (strBytes s).length := List.length_append
    have hpos : 1 ≤ (controlByte .utf8 (strBytes s).length).length := by
      unfold controlByte
      dsimp only
      split_ifs <;> simp
    exact ⟨text_blob (by unfold window at hend; omega), by omega⟩
  · exact text_pointer_of hy hk

theorem adds_strings : ∀ (l : List String) {d : DataSection}, Low window d →
    (encodeItems (l.map .string) d).bytes.length < window →
    Adds window (fun y => Text y ∧ l.length ≤ y.length) d (encodeItems (l.map .string) d)
  | [], d, hlow, _ => by
    rw [List.map_nil, encodeItems]
    exact ⟨[], by simp, ⟨text_nil, by simp⟩, hlow⟩
  | s :: l, d, hlow, hend => by
    rw [List.map_cons, encodeItems_cons] at hend ⊢
    have hle := length_le_encodeItems (l.map .string) (d.emitInline (.string s))
    have hle' := length_le_emitInline (.string s) d
    have hs := adds_string s hlow le_rfl (by omega) (by omega)
    refine hs.trans (adds_strings l hs.low hend) fun x y hx hy => ⟨hx.1.append hy.1, ?_⟩
    rw [List.length_cons, List.length_append]
    have h₁ := hx.2
    have h₂ := hy.2
    omega

/-- A header of `n` strings and text behind it. -/
def Headed (h : List UInt8) (n : ℕ) (y : List UInt8) : Prop :=
  ∃ z, y = h ++ z ∧ Text z ∧ n ≤ window

theorem adds_header (h : List UInt8) (l : List String) (hlow : Low window d)
    (hend : (encodeItems (l.map .string) (d.append h)).bytes.length < window) :
    Adds window (Headed h l.length) d (encodeItems (l.map .string) (d.append h)) := by
  obtain ⟨z, hb, ⟨hz, hl⟩, hlow'⟩ := adds_strings l (d := d.append h) hlow hend
  rw [hb, List.length_append] at hend
  exact ⟨h ++ z, by rw [hb]; exact List.append_assoc _ _ _, ⟨z, rfl, hz, by omega⟩, hlow'⟩

theorem adds_array (l : List String) (hlow : Low window d)
    (hend : (d.emitInline (.array (l.map .string))).bytes.length < window) :
    Adds window Text d (d.emitInline (.array (l.map .string))) := by
  have hle := length_le_emitInline (.array (l.map .string)) d
  refine Adds.mono (adds_emitInlineWith (P := Headed (extendedHeader .array l.length) l.length)
    hlow le_rfl (by omega) fun hfresh => ?_) fun y hy => ?_
  · unfold emitInline at hend
    rw [hfresh] at hend
    rw [encode, List.length_map] at hend ⊢
    exact adds_header _ l hlow hend
  · rcases hy with ⟨z, rfl, hz, hl⟩ | hy
    · exact (text_extendedHeader hl).append hz
    · exact (text_pointer_of hy le_rfl).1

/-- The descriptions add text, or their header, which may be the marker's third byte, and text. -/
theorem adds_map (m : List (String × String)) (hlow : Low window d)
    (hend : (d.emitInline (.map (m.map fun e => (e.1, .string e.2)))).bytes.length < window) :
    Adds window (fun y => Text y ∨ ∃ z, y = [0xef] ++ z ∧ Text z) d
      (d.emitInline (.map (m.map fun e => (e.1, .string e.2)))) := by
  have hle := length_le_emitInline (.map (m.map fun e => (e.1, .string e.2))) d
  have hitems : ∀ d : DataSection, encodeEntries (m.map fun e => (e.1, .string e.2)) d =
      encodeItems ((m.flatMap fun e => [e.1, e.2]).map .string) d := by
    intro d
    rw [encodeEntries_eq, List.flatMap_map, List.map_flatMap]
    rfl
  have hcount : m.length ≤ (m.flatMap fun e => [e.1, e.2]).length := by
    rw [List.length_flatMap]
    simp
    omega
  refine Adds.mono (adds_emitInlineWith (P := Headed (controlByte .map m.length)
    (m.flatMap fun e => [e.1, e.2]).length) hlow le_rfl (by omega) fun hfresh => ?_) fun y hy => ?_
  · unfold emitInline at hend
    rw [hfresh] at hend
    rw [encode, List.length_map, hitems] at hend ⊢
    exact adds_header _ _ hlow hend
  · rcases hy with ⟨z, rfl, hz, hl⟩ | hy
    · by_cases h15 : m.length = 15
      · rw [h15]
        exact Or.inr ⟨z, rfl, hz⟩
      · refine Or.inl ((text_controlByte ?_ (Or.inr (Or.inr ⟨rfl, h15⟩))).append hz)
        exact le_trans hcount hl
    · exact Or.inl (text_pointer_of hy le_rfl).1

/-- A number's bytes are arbitrary, but the key behind them goes on no part of the marker. -/
theorem adds_number {head p : List UInt8} (key : String) (hv : scalarEncoding v = some (head ++ p))
    (hhead : Text head) (hp : p.length ≤ 11) (hkey : Text (blob .utf8 (strBytes key)))
    (hguard : ∀ i < 14, ∀ r, ¬ metadataMarker.drop i <+: blob .utf8 (strBytes key) ++ r)
    (hlow : Low k d) (hk : k ≤ window) (hlen : (d.emitInline v).bytes.length < k) :
    Adds k Text d ((d.emitInline v).emitInline (.string key)) := by
  have hle := length_le_emitInline v d
  have hnum := adds_scalar hv hlow le_rfl (by omega)
  have hstr := adds_scalar (v := .string key) rfl hnum.low le_rfl hlen
  refine hnum.trans hstr fun x y hx hy => ?_
  have hy' : Text y ∧ ∀ i < 14, ∀ r, ¬ metadataMarker.drop i <+: y ++ r := by
    rcases hy with rfl | ⟨o, ho, rfl⟩
    · exact ⟨hkey, hguard⟩
    · have ho : o < 131072 := lt_of_lt_of_le ho hk
      exact ⟨text_pointer ho, not_prefix_pointer ho⟩
  rcases hx with rfl | hx
  · rw [List.append_assoc]
    exact hhead.append (text_payload hy'.1 hp hy'.2)
  · exact (text_pointer_of hx hk).1.append hy'.1

/-- The key before the descriptions, inline or a pointer of two bytes, ends in one byte or two that
make text of their header. -/
theorem adds_description (m : List (String × String)) (hlow : Low 2048 d)
    (hend : ((d.emitInline (.string "description")).emitInline
      (.map (m.map fun e => (e.1, .string e.2)))).bytes.length < window) :
    Adds window Text d ((d.emitInline (.string "description")).emitInline
      (.map (m.map fun e => (e.1, .string e.2)))) := by
  have hle := length_le_emitInline (.map (m.map fun e => (e.1, .string e.2)))
    (d.emitInline (.string "description"))
  have hle' := length_le_emitInline (.string "description") d
  have hwindow : 2048 ≤ window := by decide
  have hkey := adds_scalar (v := .string "description") rfl hlow hwindow (by omega)
  refine hkey.trans (adds_map m hkey.low hend) fun x y hx hy => ?_
  -- the key is text, and so it is with the marker's third byte behind it
  have hx' : Text x ∧ Text (x ++ [0xef]) := by
    rcases hx with rfl | ⟨o, ho, rfl⟩
    · refine ⟨text_of_not_mem (by decide +kernel), ?_⟩
      have hsplit : blob .utf8 (strBytes "description") ++ [0xef] =
          (blob .utf8 (strBytes "description")).dropLast ++ [0x6e, 0xef] := by decide +kernel
      rw [hsplit]
      exact (text_of_not_mem (by decide +kernel)).append
        (text_cons (by decide) (by decide) (by decide) (by simp))
    · obtain ⟨c, z, hlo, hhi, heq, -, -, hshort⟩ := pointerEncoding_eq (show o < 131072 by omega)
      have hz := hshort ho
      have hne : ∀ b : UInt8, 41 < b.toNat → c ≠ b := fun b hb h => by rw [h] at hhi; omega
      refine ⟨text_pointer (by omega), ?_⟩
      rw [heq, List.cons_append]
      exact text_cons (hne _ (by decide)) (hne _ (by decide)) (hne _ (by decide)) (by simp [hz])
  rcases hy with hy | ⟨z, rfl, hz⟩
  · exact hx'.1.append hy
  · rw [← List.append_assoc]
    exact hx'.2.append hz

theorem length_emitInline_le (hx : scalarEncoding v = some x) (hshort : x.length ≤ 40) :
    (d.emitInline v).bytes.length ≤ d.bytes.length + 40 := by
  rcases emitInlineWith_cases (encode v) v d with ⟨entry, -, -, heq⟩ | heq
  · have hptr : (pointerEncoding entry.offset).length ≤ 5 := by
      rw [length_pointerEncoding]
      unfold pointerBytes
      split_ifs <;> omega
    unfold emitInline
    rw [heq]
    show (d.bytes ++ pointerEncoding entry.offset).length ≤ _
    rw [List.length_append]
    omega
  · unfold emitInline
    rw [heq, emitFresh_bytes.1, encode_scalar hx]
    show (d.bytes ++ x).length ≤ _
    rw [List.length_append]
    omega

theorem length_encodeItems_le : ∀ (vs : List Value) {d : DataSection},
    (∀ v ∈ vs, ∃ x, scalarEncoding v = some x ∧ x.length ≤ 40) →
    (encodeItems vs d).bytes.length ≤ d.bytes.length + 40 * vs.length
  | [], d, _ => by
    rw [encodeItems]
    simp
  | v :: vs, d, h => by
    obtain ⟨x, hx, hshort⟩ := h v List.mem_cons_self
    have hle := length_emitInline_le (d := d) hx hshort
    have ih := length_encodeItems_le vs (d := d.emitInline v) fun u hu =>
      h u (List.mem_cons_of_mem _ hu)
    rw [encodeItems_cons, List.length_cons]
    omega

end Windowed

end DataSection

namespace Metadata

open DataSection

/-- The fields before the database type, whose encodings are short text. -/
def front : List Value :=
  [.string "binary_format_major_version", .u16 2, .string "binary_format_minor_version", .u16 0,
    .string "build_epoch"]

theorem front_spec : ∀ v ∈ front, ∃ x, scalarEncoding v = some x ∧ 0xef ∉ x ∧ x.length ≤ 40 := by
  unfold front
  simp only [List.forall_mem_cons]
  refine ⟨⟨_, rfl, ?_⟩, ⟨_, rfl, ?_⟩, ⟨_, rfl, ?_⟩, ⟨_, rfl, ?_⟩, ⟨_, rfl, ?_⟩, by simp⟩ <;>
    decide +kernel

theorem text_u16 (n : BitVec 16) (h : 0xef ∉ uintEncoding .uint16 n.toNat 2) :
    ∃ x, scalarEncoding (.u16 n) = some x ∧ Text x := ⟨_, rfl, text_of_not_mem h⟩

theorem text_key (k : String) (h : 0xef ∉ blob .utf8 (strBytes k)) :
    ∃ x, scalarEncoding (.string k) = some x ∧ Text x := ⟨_, rfl, text_of_not_mem h⟩

theorem scalarEncoding_u64 (n : BitVec 64) : ∃ head p, scalarEncoding (.u64 n) = some (head ++ p) ∧
    Text head ∧ p.length ≤ 8 ∧ (head ++ p).length ≤ 40 := by
  have hp := (encodeUintTrimmed_spec (show 8 ≤ 16 by decide) (show n.toNat < 256 ^ 8 from n.isLt)).2
  refine ⟨_, _, rfl, text_extendedHeader (by omega), hp, ?_⟩
  unfold extendedHeader controlByte
  dsimp only
  rw [if_pos (by omega)]
  simp
  omega

theorem scalarEncoding_u32 (n : BitVec 32) : ∃ head p, scalarEncoding (.u32 n) = some (head ++ p) ∧
    Text head ∧ p.length ≤ 4 := by
  have hp := (encodeUintTrimmed_spec (show 4 ≤ 16 by decide) (show n.toNat < 256 ^ 4 from n.isLt)).2
  have hhead : ∀ s : Fin 5, 0xef ∉ controlByte .uint32 s := by decide +kernel
  refine ⟨_, _, rfl, text_of_not_mem (hhead ⟨(encodeUintTrimmed n.toNat 4).length, by omega⟩), hp⟩

theorem database_type_guard (i : ℕ) (hi : i < 14) (r : List UInt8) :
    ¬ metadataMarker.drop i <+: blob .utf8 (strBytes "database_type") ++ r := by
  have hkey : blob .utf8 (strBytes "database_type") =
      0x4d :: 0x64 :: (blob .utf8 (strBytes "database_type")).drop 2 := by decide +kernel
  rw [hkey]
  intro hm
  simp only [List.cons_append] at hm
  unfold metadataMarker at hm
  interval_cases i <;> simp at hm

theorem record_size_guard (i : ℕ) (hi : i < 14) (r : List UInt8) :
    ¬ metadataMarker.drop i <+: blob .utf8 (strBytes "record_size") ++ r := by
  have hkey : blob .utf8 (strBytes "record_size") =
      0x4b :: (blob .utf8 (strBytes "record_size")).drop 1 := by decide +kernel
  rw [hkey]
  exact not_prefix_cons (by decide) _ hi

/-- No marker starts in a metadata section of the window's size. -/
theorem clean_toBytes (m : Metadata) (h : m.toBytes.length < window) : Clean m.toBytes := by
  obtain ⟨d, hd, hb, hl⟩ : ∃ d : DataSection, m.toBytes = (d.push m.toMap).1.bytes ∧ d.bytes = [] ∧
      d.dedup = [] := by
    unfold toBytes
    split_ifs <;> exact ⟨_, rfl, rfl, rfl⟩
  have hlow : ∀ k, Low k d := fun k u entry hu => by
    rw [hl] at hu
    cases hu
  have hpush : (d.push m.toMap).1.bytes = (encode m.toMap d).bytes := by
    rw [push_of_none (by rw [hl]; rfl)]
  obtain ⟨d₁, hd₁⟩ : ∃ d₁, d₁ = encodeItems front (d.append (controlByte .map 9)) := ⟨_, rfl⟩
  obtain ⟨d₂, hd₂⟩ : ∃ d₂, d₂ = (d₁.emitInline (.u64 m.buildEpoch)).emitInline
    (.string "database_type") := ⟨_, rfl⟩
  obtain ⟨d₃, hd₃⟩ : ∃ d₃, d₃ = d₂.emitInline (.string m.databaseType) := ⟨_, rfl⟩
  obtain ⟨d₄, hd₄⟩ : ∃ d₄, d₄ = (d₃.emitInline (.string "description")).emitInline
    (.map (m.descriptions.map fun e => (e.1, .string e.2))) := ⟨_, rfl⟩
  obtain ⟨d₅, hd₅⟩ : ∃ d₅, d₅ = encodeItems
    [.string "ip_version", .u16 m.ipVersion.metadata, .string "languages"] d₄ := ⟨_, rfl⟩
  obtain ⟨d₆, hd₆⟩ : ∃ d₆, d₆ = d₅.emitInline (.array (m.languages.map .string)) := ⟨_, rfl⟩
  obtain ⟨d₇, hd₇⟩ : ∃ d₇, d₇ = encodeItems [.string "node_count"] d₆ := ⟨_, rfl⟩
  obtain ⟨d₈, hd₈⟩ : ∃ d₈, d₈ =
    (d₇.emitInline (.u32 (BitVec.ofNat 32 (min m.nodeCount u32Max)))).emitInline
      (.string "record_size") := ⟨_, rfl⟩
  obtain ⟨d₉, hd₉⟩ : ∃ d₉, d₉ = encodeItems [.u16 m.recordSize.asMetadata] d₈ := ⟨_, rfl⟩
  have hrun : encode m.toMap d = d₉ := by
    rw [toMap_eq, encode, encodeEntries_eq, hd₉, hd₈, hd₇, hd₆, hd₅, hd₄, hd₃, hd₂, hd₁]
    unfold front
    simp only [List.flatMap_cons, List.flatMap_nil, List.cons_append, List.nil_append,
      encodeItems_cons, encodeItems]
    rfl
  rw [hd, hpush, hrun] at h ⊢
  have hle₂ : d₂.bytes.length ≤ d₃.bytes.length := hd₃ ▸ length_le_emitInline _ _
  have hle₃ : d₃.bytes.length ≤ d₄.bytes.length :=
    hd₄ ▸ le_trans (length_le_emitInline _ _) (length_le_emitInline _ _)
  have hle₄ : d₄.bytes.length ≤ d₅.bytes.length := hd₅ ▸ length_le_encodeItems _ _
  have hle₅ : d₅.bytes.length ≤ d₆.bytes.length := hd₆ ▸ length_le_emitInline _ _
  have hle₆ : d₆.bytes.length ≤ d₇.bytes.length := hd₇ ▸ length_le_encodeItems _ _
  have hle₇ := length_le_emitInline (.u32 (BitVec.ofNat 32 (min m.nodeCount u32Max))) d₇
  have hle₈ : (d₇.emitInline (.u32 (BitVec.ofNat 32 (min m.nodeCount u32Max)))).bytes.length ≤
      d₈.bytes.length := hd₈ ▸ length_le_emitInline _ _
  have hle₉ : d₈.bytes.length ≤ d₉.bytes.length := hd₉ ▸ length_le_encodeItems _ _
  obtain ⟨head, p, hepoch, hhead, hp, hshort⟩ := scalarEncoding_u64 m.buildEpoch
  have hlen₀ : (d.append (controlByte .map 9)).bytes.length = 1 := by
    show (d.bytes ++ _).length = 1
    rw [hb]
    rfl
  have hlen₁ : d₁.bytes.length ≤ 1 + 40 * 5 := by
    have := length_encodeItems_le front (d := d.append (controlByte .map 9)) fun v hv => by
      obtain ⟨x, hx, -, hlen⟩ := front_spec v hv
      exact ⟨x, hx, hlen⟩
    rwa [hlen₀, ← hd₁] at this
  have hlen₂ := length_emitInline_le (d := d₁) hepoch hshort
  have hlen₃ : d₂.bytes.length ≤ _ := hd₂ ▸ length_emitInline_le
    (d := d₁.emitInline (.u64 m.buildEpoch)) (v := .string "database_type") rfl (by decide +kernel)
  have h₁ : Adds 2048 Text (d.append (controlByte .map 9)) d₁ := by
    rw [hd₁] at hlen₁ ⊢
    refine adds_texts (by decide) front (fun v hv => ?_) (hlow _) (by omega)
    obtain ⟨x, hx, hef, -⟩ := front_spec v hv
    exact ⟨x, hx, text_of_not_mem hef⟩
  have h₂ : Adds 2048 Text d₁ d₂ := hd₂ ▸ adds_number "database_type" hepoch hhead (by omega)
    (text_of_not_mem (by decide +kernel)) database_type_guard h₁.low (by decide) (by omega)
  have h₃ : Adds 2048 (fun y => Text y ∧ 1 ≤ y.length) d₂ d₃ := by
    have hend : d₃.bytes.length < window := by omega
    rw [hd₃] at hend ⊢
    exact adds_string _ h₂.low (by decide) (by omega) hend
  have h₄ : Adds window Text d₃ d₄ := by
    have hend : d₄.bytes.length < window := by omega
    rw [hd₄] at hend ⊢
    exact adds_description _ h₃.low hend
  have h₅ : Adds window Text d₄ d₅ := by
    have hend : d₅.bytes.length < window := by omega
    rw [hd₅] at hend ⊢
    refine adds_texts le_rfl _ ?_ h₄.low hend
    simp only [List.forall_mem_cons]
    refine ⟨text_key _ (by decide +kernel), text_u16 _ ?_, text_key _ (by decide +kernel), by simp⟩
    cases m.ipVersion <;> decide +kernel
  have h₆ : Adds window Text d₅ d₆ := by
    have hend : d₆.bytes.length < window := by omega
    rw [hd₆] at hend ⊢
    exact adds_array _ h₅.low hend
  have h₇ : Adds window Text d₆ d₇ := by
    have hend : d₇.bytes.length < window := by omega
    rw [hd₇] at hend ⊢
    refine adds_texts le_rfl _ ?_ h₆.low hend
    simp only [List.forall_mem_cons]
    exact ⟨text_key _ (by decide +kernel), by simp⟩
  obtain ⟨head', p', hcount, hhead', hp'⟩ :=
    scalarEncoding_u32 (BitVec.ofNat 32 (min m.nodeCount u32Max))
  have h₈ : Adds window Text d₇ d₈ := hd₈ ▸ adds_number "record_size" hcount hhead' (by omega)
    (text_of_not_mem (by decide +kernel)) record_size_guard h₇.low le_rfl (by omega)
  have h₉ : Adds window Text d₈ d₉ := by
    rw [hd₉] at h ⊢
    refine adds_texts le_rfl _ ?_ h₈.low h
    simp only [List.forall_mem_cons]
    refine ⟨text_u16 _ ?_, by simp⟩
    cases m.recordSize <;> decide +kernel
  have htext : ∀ x y, Text x → Text y → Text (x ++ y) := fun x y hx hy => hx.append hy
  obtain ⟨y, hy, ht, -⟩ := (((((((h₁.trans h₂ htext).trans h₃ fun x y hx hy => hx.append hy.1).trans
    h₄ htext).trans h₅ htext).trans h₆ htext).trans h₇ htext).trans h₈ htext).trans h₉ htext
  have hfirst : (d.append (controlByte .map 9)).bytes = [0xe9] := by
    show d.bytes ++ _ = _
    rw [hb]
    rfl
  rw [hy, hfirst]
  have := (((text_byte (b := 0xe9) (by decide)).append ht) [] quiet_nil clean_nil).2
  rwa [List.append_nil] at this

end Metadata

namespace Writer

/-- The last place in `b` where `x` starts is `i`. -/
def LastStart (x b : List UInt8) (i : ℕ) : Prop := x <+: b.drop i ∧ ∀ j, x <+: b.drop j → j ≤ i

theorem lastStart_marker {front b : List UInt8} (h : Clean b) :
    LastStart metadataMarker (front ++ metadataMarker ++ b) front.length := by
  have htail : ∀ k ≤ 13, Clean (metadataMarker.drop (14 - k) ++ b) := by
    intro k hk
    induction k with
    | zero => exact h
    | succ k ih =>
      have hlt : 14 - (k + 1) < metadataMarker.length := by
        rw [show metadataMarker.length = 14 from rfl]
        omega
      rw [List.drop_eq_getElem_cons hlt, show 14 - (k + 1) + 1 = 14 - k by omega, List.cons_append]
      refine clean_cons (not_marker_cons fun hab => ?_) (ih (by omega))
      have hfirst : ∀ i : Fin 14, metadataMarker[i] = 0xab → i = 0 := by decide +kernel
      have := congrArg Fin.val (hfirst ⟨14 - (k + 1), by omega⟩ hab)
      simp at this
      omega
  refine ⟨by rw [List.append_assoc, List.drop_left]; exact List.prefix_append _ _, fun j hj => ?_⟩
  by_contra hlt
  have hcut : (front ++ metadataMarker ++ b).drop j =
      (metadataMarker.drop 1 ++ b).drop (j - (front.length + 1)) := by
    rw [List.append_assoc, List.drop_append, List.drop_eq_nil_of_le (by omega), List.nil_append,
      show j - front.length = 1 + (j - (front.length + 1)) by omega, ← List.drop_drop]
    rfl
  rw [hcut] at hj
  exact htail 13 le_rfl _ hj

/-- A file is a part in front, the marker and the metadata, and where the marker and the metadata fit
in the window readers search, no marker starts after that one. -/
theorem toBytes_lastStart (w : Writer) (now : SystemTime) {file : List UInt8}
    (h : w.toBytes now = .ok file) : ∃ tree recordSize front, w.buildTree = .ok tree ∧
      file = front ++ metadataMarker ++ (w.metadata now tree recordSize).toBytes ∧
      (metadataMarker.length + (w.metadata now tree recordSize).toBytes.length ≤ 128 * 1024 →
        LastStart metadataMarker file front.length) := by
  obtain ⟨tree, data, idToOffset, recordSize, treeBytes, htree, -, -, -, rfl⟩ :=
    toBytes_eq_ok.mp h
  refine ⟨tree, recordSize, _, htree, rfl, fun hfits => ?_⟩
  refine lastStart_marker (Metadata.clean_toBytes _ ?_)
  have hmarker : metadataMarker.length = 14 := rfl
  unfold DataSection.window
  omega

/-- A database type that spells the marker's letters, on a writer without data. -/
theorem toBytes_lastStart_letters :
    let w : Writer :=
      { databaseType := "MaxMind.com", ipVersion := .v4, tree := Tree.new, pool := ValuePool.new }
    ∃ file tree recordSize front, w.toBytes 0 = .ok file ∧
      file = front ++ metadataMarker ++ (w.metadata 0 tree recordSize).toBytes ∧
      LastStart metadataMarker file front.length := by
  intro w
  let file : List UInt8 := (w.toBytes 0).toOption.getD []
  have hfile : w.toBytes 0 = .ok file := by decide +kernel
  have hshort : file.length ≤ 128 * 1024 := by decide +kernel
  obtain ⟨tree, recordSize, front, -, heq, hlast⟩ := toBytes_lastStart w 0 hfile
  refine ⟨file, tree, recordSize, front, hfile, heq, hlast ?_⟩
  have := congrArg List.length heq
  rw [List.length_append, List.length_append] at this
  omega

end Writer

end MmdbWriter
