import MmdbWriter.Proofs.Oversize
import MmdbWriter.Proofs.Unambiguous

/-!
# A metadata section whose languages are misread

The languages are the only array of the metadata. Where their header is misread, a reader finds either
no value at all, or an array that ends before the last languages, which it takes for the entries after
it. So it finds no node count.
-/

namespace MmdbWriter

open Mmdb (Field Header decode decodeItems decodeEntries HasLayout)
open Value (SizeOk HeaderOk All AllArray AllMap)

/-- The keys and the values of a map in a row. -/
def flatEntries (m : List (String × Value)) : List Value := m.flatMap fun e => [.string e.1, e.2]

section Flat

theorem allArray_flatEntries {P : Value → Prop} (hP : ∀ s, P (.string s) → All P (.string s)) :
    ∀ {m : List (String × Value)}, AllMap P m → AllArray P (flatEntries m)
  | [], _ => trivial
  | (_, _) :: _, h => ⟨hP _ h.1, h.2.1, allArray_flatEntries hP h.2.2⟩

theorem mem_flatEntries {k : String} {v : Value} : ∀ {m : List (String × Value)},
    mapGet k m = some v → v ∈ flatEntries m
  | (k', v') :: m, h => by
    unfold mapGet at h
    split_ifs at h with hk
    · rw [Option.some.injEq] at h
      simp [flatEntries, h]
    · have := mem_flatEntries h
      simp [flatEntries] at this ⊢
      exact Or.inr (Or.inr this)

theorem allArray_append {P : Value → Prop} : ∀ {a b : List Value},
    AllArray P (a ++ b) ↔ AllArray P a ∧ AllArray P b
  | [], b => by simp [AllArray]
  | v :: a, b => by simp [AllArray, allArray_append, and_assoc]

theorem itemsAt_append {data : List UInt8} {b : List Value} {m e : ℕ} {g : List Field}
    (hb : ItemsAt data b m e g) : ∀ {a : List Value} {s : ℕ} {f : List Field},
    ItemsAt data a s m f → ItemsAt data (a ++ b) s e (f ++ g)
  | [], s, f, ha => by
    rw [ItemsAt] at ha
    rw [ha.1, ha.2]
    exact hb
  | v :: a, s, f, ha => by
    rw [ItemsAt] at ha
    obtain ⟨m', f₁, f₂, hv, ha, rfl⟩ := ha
    rw [List.cons_append, ItemsAt]
    exact ⟨m', f₁, f₂ ++ g, hv, itemsAt_append hb ha, by rw [List.append_assoc]⟩

variable {dec : List UInt8 → Option (Value × List UInt8)} {b : List UInt8}

/-- `j + k` values in a row are `j` values and then `k` values. -/
theorem decodeItems_add {k : ℕ} : ∀ {j : ℕ} {b : List UInt8} {r : List Value × List UInt8},
    decodeItems dec (j + k) b = some r → ∃ x b' y, decodeItems dec j b = some (x, b') ∧
      decodeItems dec k b' = some (y, r.2) ∧ r.1 = x ++ y
  | 0, b, r, h => ⟨[], b, r.1, rfl, by rwa [Nat.zero_add] at h, rfl⟩
  | j + 1, b, r, h => by
    rw [Nat.add_right_comm, decodeItems] at h
    simp only [Option.bind_eq_bind, Option.bind_eq_some_iff, Option.some.injEq] at h
    obtain ⟨⟨v, b₁⟩, hv, ⟨items, b₂⟩, hitems, rfl⟩ := h
    obtain ⟨x, b', y, hx, hy, rfl⟩ := decodeItems_add hitems
    exact ⟨v :: x, b', y, by simp [decodeItems, hv, hx], hy, rfl⟩

theorem decodeItems_le {n k : ℕ} {items : List Value} {r : List Value × List UInt8}
    (hn : decodeItems dec n b = some (items, [])) (hnil : dec [] = none)
    (hk : decodeItems dec k b = some r) : k ≤ n := by
  by_contra hlt
  obtain ⟨j, rfl⟩ := Nat.exists_eq_add_of_lt (not_le.mp hlt)
  rw [Nat.add_assoc] at hk
  obtain ⟨x, b', y, hx, hy, -⟩ := decodeItems_add hk
  rw [hn, Option.some.injEq, Prod.mk.injEq] at hx
  rw [← hx.2, decodeItems, hnil] at hy
  cases hy

theorem decodeItems_of_decodeEntries : ∀ {n : ℕ} {b : List UInt8}
    {r : List (String × Value) × List UInt8}, decodeEntries dec n b = some r →
    decodeItems dec (2 * n) b = some (flatEntries r.1, r.2)
  | 0, b, r, h => by
    simp only [decodeEntries, Option.some.injEq] at h
    rw [← h]
    rfl
  | n + 1, b, r, h => by
    unfold decodeEntries at h
    rcases hk : dec b with _ | ⟨k, b₁⟩
    · rw [hk] at h
      cases h
    rw [hk] at h
    cases k <;> simp only [reduceCtorEq] at h
    simp only [Option.bind_eq_bind, Option.bind_eq_some_iff, Option.some.injEq] at h
    obtain ⟨⟨v, b₂⟩, hv, ⟨entries, b₃⟩, hentries, rfl⟩ := h
    have ih := decodeItems_of_decodeEntries hentries
    show decodeItems dec (2 * n + 1 + 1) b = _
    simp [decodeItems, hk, hv, ih, flatEntries]

end Flat

/-- A misread header of an array is that of more items than the array and four values behind it, or of
an array that ends before the last four, or of no value. -/
theorem arrayHeader_misread {n : ℕ} (h : n < sizeLimit) (hbad : ¬ ArrayLenOk n) :
    7 ≤ (arrayHeader n).1 ∧ 29 ≤ (arrayHeader n).2 ∧
      ((arrayHeader n).1 = 7 → n + 4 < 2 * (arrayHeader n).2) ∧
      ((arrayHeader n).1 = 11 → n + 4 < (arrayHeader n).2 ∨ (arrayHeader n).2 + 4 ≤ n) := by
  unfold sizeLimit at h
  unfold ArrayLenOk at hbad
  unfold arrayHeader
  by_cases h1 : n < 29
  · omega
  by_cases h2 : n < 285
  · rw [if_neg h1, if_pos h2]
    dsimp only
    omega
  by_cases h3 : n < 65821
  · rw [if_neg h1, if_neg h2, if_pos h3]
    dsimp only
    obtain ⟨a, b, hb, rfl⟩ : ∃ a b, b < 256 ∧ n = 285 + (256 * a + b) :=
      ⟨(n - 285) / 256, (n - 285) % 256, Nat.mod_lt _ (by decide), by omega⟩
    rw [Nat.add_sub_cancel_left, Nat.mul_add_div (by decide), Nat.div_eq_of_lt hb,
      Nat.mul_add_mod, Nat.mod_eq_of_lt hb, Nat.mod_eq_of_lt (by omega)]
    omega
  · rw [if_neg h1, if_neg h2, if_neg h3]
    dsimp only
    obtain ⟨a, b, hb, rfl⟩ : ∃ a b, b < 65536 ∧ n = 65821 + (65536 * a + b) :=
      ⟨(n - 65821) / 65536, (n - 65821) % 65536, Nat.mod_lt _ (by decide), by omega⟩
    rw [Nat.add_sub_cancel_left, Nat.mul_add_div (by decide), Nat.div_eq_of_lt hb,
      Nat.mul_add_mod, Nat.mod_eq_of_lt hb, Nat.mod_eq_of_lt (by omega)]
    omega

/-- A payload of 29 bytes and more spells no value of an extended type. -/
theorem decodeScalar_long {type : ℕ} {payload : List UInt8} (ht : 7 ≤ type)
    (hl : 29 ≤ payload.length) : Mmdb.decodeScalar type payload = none := by
  unfold Mmdb.decodeScalar
  split <;> first | omega | (rw [if_neg (by omega)]) | rfl

namespace Metadata

open DataSection

/-- What is written up to the languages, and what is written after them. -/
def before (m : Metadata) : List Value :=
  flatEntries [("binary_format_major_version", .u16 2), ("binary_format_minor_version", .u16 0),
    ("build_epoch", .u64 m.buildEpoch), ("database_type", .string m.databaseType),
    ("description", .map (m.descriptions.map fun e => (e.1, .string e.2))),
    ("ip_version", .u16 m.ipVersion.metadata)] ++ [.string "languages"]

def after (m : Metadata) : List Value :=
  flatEntries [("node_count", .u32 (BitVec.ofNat 32 (min m.nodeCount u32Max))),
    ("record_size", .u16 m.recordSize.asMetadata)]

/-- The languages lie inline, with what is written after them behind them. -/
theorem itemsAt_toBytes (m : Metadata) : ∃ s h f g,
    m.toBytes = controlByte .map 9 ++ m.toBytes.drop 1 ∧
      ItemsAt m.toBytes m.before 1 s f ∧
      Slice m.toBytes s h (extendedHeader .array m.languages.length) ∧
      ItemsAt m.toBytes (m.languages.map .string ++ m.after) h m.toBytes.length g := by
  obtain ⟨d, hd, hb, hl⟩ : ∃ d : DataSection, m.toBytes = (d.push m.toMap).1.bytes ∧ d.bytes = [] ∧
      d.dedup = [] := by
    unfold toBytes
    split_ifs <;> exact ⟨_, rfl, rfl, rfl⟩
  obtain ⟨d₁, hd₁⟩ : ∃ d₁, d₁ = encodeItems m.before (d.append (controlByte .map 9)) := ⟨_, rfl⟩
  obtain ⟨d₂, hd₂⟩ : ∃ d₂, d₂ = d₁.emitInline (.array (m.languages.map .string)) := ⟨_, rfl⟩
  have hrun : m.toBytes = (encodeItems m.after d₂).bytes := by
    rw [hd, push_of_none (by rw [hl]; rfl), toMap_eq, encode, encodeEntries_eq, hd₂, hd₁]
    unfold before after flatEntries
    simp only [List.flatMap_cons, List.flatMap_nil, List.cons_append, List.nil_append,
      encodeItems_cons, encodeItems]
    rfl
  have hfresh : d₁.dedup.lookup (.array (m.languages.map .string)) = none := by
    by_contra hne
    have hdesc := allMap_string (P := fun u => ∀ items, u ≠ .array items) (fun s items => by simp)
      m.descriptions
    have := (encode_known fun u => ∀ items, u ≠ .array items).2.1 m.before
      (d.append (controlByte .map 9))
      (fun u hu => absurd (show d.dedup.lookup u = none by rw [hl]; rfl) hu)
      (by simp [before, flatEntries, AllArray, All, hdesc]) _ (hd₁ ▸ hne)
    exact this _ rfl
  have hbytes : (d.append (controlByte .map 9)).bytes = controlByte .map 9 := by
    show d.bytes ++ _ = _
    rw [hb, List.nil_append]
  obtain ⟨f, hbefore, hgood₁⟩ := encode_leaves.2.1 m.before _ _
    ((sound_empty hb hl).good.append (controlByte .map 9))
  rw [← hd₁, hbytes] at hbefore
  rw [← hd₁] at hgood₁
  obtain ⟨f', hlang, hgood₂⟩ := emitFresh_leaves (v := .array (m.languages.map .string))
    (grows_encode.1 _ d₁) (fun _ _ _ => inline_value_mem) (encode_leaves.1 _ _ _ hgood₁)
  have hd₂' : d₂ = d₁.emitFresh (encode (.array (m.languages.map .string)))
      (.array (m.languages.map .string)) := by
    rcases emitInlineWith_cases (encode (.array (m.languages.map .string)))
      (.array (m.languages.map .string)) d₁ with ⟨entry, hentry, -⟩ | heq
    · rw [hfresh] at hentry
      cases hentry
    · rw [hd₂, ← heq]
      rfl
  rw [← hd₂'] at hlang hgood₂
  rw [Inline, List.length_map] at hlang
  obtain ⟨h, inner, hslice, hitems, -⟩ := hlang
  obtain ⟨g, hafter, -⟩ := encode_leaves.2.1 m.after _ _ hgood₂
  obtain ⟨y₂, hy₂⟩ := (grows_encode.2.1 m.after d₂).bytes
  obtain ⟨y₁, hy₁⟩ := (grows_emitInlineWith (grows_encode.1 _) (.array (m.languages.map .string))
    d₁).bytes
  obtain ⟨y₀, hy₀⟩ := (grows_encode.2.1 m.before (d.append (controlByte .map 9))).bytes
  have h₁ : m.toBytes = d₁.bytes ++ (y₁ ++ y₂) := by
    rw [hrun, ← hy₂, hd₂, ← List.append_assoc, hy₁]
    rfl
  have h₀ : m.toBytes = controlByte .map 9 ++ (y₀ ++ (y₁ ++ y₂)) := by
    rw [h₁, hd₁, ← hy₀, hbytes, List.append_assoc]
  refine ⟨_, h, f, inner ++ g, ?_, h₁ ▸ (inline_append _).2.1 _ _ _ _ hbefore,
    hrun ▸ hy₂ ▸ hslice.append y₂, ?_⟩
  · rw [h₀]
    rfl
  · rw [hrun]
    exact itemsAt_append hafter (hy₂ ▸ (inline_append y₂).2.1 _ _ _ _ hitems)

theorem all_before {P : Value → Prop} {m : Metadata} (hP : ∀ s, P (.string s) → All P (.string s))
    (h : All P m.toMap) : AllArray P m.before ∧ AllArray P (m.languages.map .string ++ m.after) := by
  rw [toMap_eq] at h
  have hflat := allArray_flatEntries hP h.2
  simp only [flatEntries, List.flatMap_cons, List.flatMap_nil, List.cons_append, List.nil_append,
    AllArray] at hflat
  obtain ⟨h₁, h₂, h₃, h₄, h₅, h₆, h₇, h₈, h₉, h₁₀, h₁₁, h₁₂, h₁₃, hlang, h₁₅, h₁₆, h₁₇, h₁₈, -⟩ :=
    hflat
  refine ⟨?_, allArray_append.mpr ⟨hlang.2, h₁₅, h₁₆, h₁₇, h₁₈, trivial⟩⟩
  exact ⟨h₁, h₂, h₃, h₄, h₅, h₆, h₇, h₈, h₉, h₁₀, h₁₁, h₁₂, h₁₃, trivial⟩

/-- The value of a misread array is no number, nor are the four values read after it. -/
theorem misread_languages {m : Metadata} (hs : All SizeOk m.toMap)
    (hbad : ¬ ArrayLenOk m.languages.length) {data : List UInt8} {h : ℕ} {g : List Field}
    (hitems : ItemsAt data (m.languages.map .string ++ m.after) h data.length g) {fuel : ℕ}
    {v : Value} {b : List UInt8} {r : List Value × List UInt8}
    (hv : decode data fuel (extendedHeader .array m.languages.length ++ data.drop h) = some (v, b))
    (hr : decodeItems (decode data fuel) 4 b = some r) : ∀ u ∈ v :: r.1, ∀ n, u ≠ .u32 n := by
  have hsize : m.languages.length < sizeLimit := by
    have := ((all_sizeOk_iff m).mp hs).2.2.1
    rwa [SizeOk, List.length_map] at this
  have hlen : (m.languages.map Value.string ++ m.after).length = m.languages.length + 4 := by
    simp [after, flatEntries]
  have hhead : AllArray HeaderOk (m.languages.map .string ++ m.after) :=
    allArray_append.mpr ⟨allArray_string (fun _ => trivial) _,
      by simp [after, flatEntries, AllArray, All, HeaderOk]⟩
  obtain ⟨k, hk⟩ := readsAt_inline.2.1 _ hhead (all_before (fun _ h => h) hs).2 _ _ _ hitems
  obtain ⟨h7, h29, hmap, harray⟩ := arrayHeader_misread hsize hbad
  cases fuel with
  | zero => cases hv
  | succ fuel =>
    have hall := hk (max k (fuel + 1)) (le_max_left _ _)
    rw [hlen, List.drop_length] at hall
    have hlift : ∀ b r, decode data fuel b = some r → decode data (max k (fuel + 1)) b = some r :=
      fun _ _ => decode_mono (by omega)
    have hnil : decode data (max k (fuel + 1)) [] = none := by
      rw [show max k (fuel + 1) = max k (fuel + 1) - 1 + 1 by omega]
      rfl
    unfold decode at hv
    rw [readHeader_array hsize] at hv
    dsimp only at hv
    split_ifs at hv with ht7 ht11 ht14 h0 h1
    · simp only [Option.bind_eq_bind, Option.bind_eq_some_iff] at hv
      obtain ⟨entries, hentries, -⟩ := hv
      have := decodeItems_le hall hnil
        (decodeItems_of_decodeEntries (decodeEntries_mono hlift _ _ hentries))
      have := hmap ht7
      omega
    · simp only [Option.bind_eq_bind, Option.bind_eq_some_iff, Option.some.injEq, Prod.mk.injEq] at hv
      obtain ⟨⟨items, b'⟩, hread, rfl, rfl⟩ := hv
      have hread := decodeItems_mono hlift _ _ hread
      have hr := decodeItems_mono (fun _ _ => decode_mono (le_max_right k (fuel + 1))) _ _ hr
      have hle := decodeItems_le hall hnil hread
      have hshort := (harray ht11).resolve_left (by omega)
      -- the four values after the items are languages too
      obtain ⟨rest, hrest⟩ := Nat.exists_eq_add_of_le hshort
      rw [hrest, Nat.add_assoc, Nat.add_assoc] at hall
      obtain ⟨x, b, y, hx, hy, heq⟩ := decodeItems_add hall
      rw [hread, Option.some.injEq, Prod.mk.injEq] at hx
      obtain ⟨rfl, rfl⟩ := hx
      obtain ⟨x, b'', y, hx, -, rfl⟩ := decodeItems_add hy
      rw [hr, Option.some.injEq, Prod.mk.injEq] at hx
      obtain ⟨rfl, -⟩ := hx
      dsimp only at heq
      have hpre : items ++ r.1 <+: m.languages.map .string := by
        have hfull : items ++ r.1 <+: m.languages.map .string ++ m.after := by
          rw [heq, ← List.append_assoc]
          exact List.prefix_append _ _
        refine List.prefix_of_prefix_length_le hfull (List.prefix_append _ _) ?_
        rw [List.length_append, List.length_map, length_decodeItems _ _ hread,
          length_decodeItems _ _ hr]
        exact hshort
      intro u hu n hun
      rcases List.mem_cons.mp hu with rfl | hu
      · cases hun
      · have := hpre.subset (List.mem_append_right items hu)
        simp [hun] at this
    · omega
    · omega
    · simp only [Option.bind_eq_bind, Option.bind_eq_some_iff, Option.some.injEq, Prod.mk.injEq] at hv
      obtain ⟨⟨payload, b'⟩, hchunk, v', hscalar, -⟩ := hv
      rw [decodeScalar_long h7 (by rw [(Bytes.readChunk_eq_some hchunk).2]; exact h29)] at hscalar
      cases hscalar

/-- With misread languages the metadata tells no layout. -/
theorem not_hasLayout {m : Metadata} (hs : All SizeOk m.toMap)
    (hbad : ¬ ArrayLenOk m.languages.length) (layout : Mmdb.Layout) :
    ¬ HasLayout m.toBytes layout := by
  rintro ⟨entries, nodeCount, -, -, ⟨fuel, rest, hd⟩, hcount, -⟩
  obtain ⟨s, h, f, g, hfirst, hbefore, hslice, hitems⟩ := m.itemsAt_toBytes
  have hok : AllArray HeaderOk m.before := by
    have hdesc := allMap_string (P := HeaderOk) (fun _ => trivial) m.descriptions
    simp [before, flatEntries, AllArray, All, HeaderOk, hdesc]
  obtain ⟨k, hk⟩ := readsAt_inline.2.1 _ hok (all_before (fun _ h => h) hs).1 _ _ _ hbefore
  cases fuel with
  | zero => cases hd
  | succ fuel =>
    have hread := readHeader_controlByte .map (by decide) (by decide)
      (show 9 < sizeLimit by decide) (m.toBytes.drop 1)
    unfold decode at hd
    rw [List.drop_zero, hfirst, hread] at hd
    simp only [show TypeTag.map.code.toNat = 7 from rfl, if_true, Option.bind_eq_bind,
      Option.bind_eq_some_iff, Option.some.injEq, Prod.mk.injEq, Value.map.injEq] at hd
    obtain ⟨⟨entries', r⟩, hd, rfl, -⟩ := hd
    rw [← hfirst] at hd
    have hlift : ∀ b r, decode m.toBytes fuel b = some r →
        decode m.toBytes (max k fuel) b = some r := fun _ _ => decode_mono (by omega)
    have hflat := decodeItems_mono hlift _ _ (decodeItems_of_decodeEntries hd)
    have hlen : 2 * 9 = m.before.length + (1 + 4) := by simp [before, flatEntries]
    rw [hlen] at hflat
    obtain ⟨x, b, y, hx, hy, heq⟩ := decodeItems_add hflat
    rw [show decodeItems (fun b => decode m.toBytes (max k fuel) b) m.before.length
      (m.toBytes.drop 1) = _ from hk _ (le_max_left _ _), Option.some.injEq, Prod.mk.injEq] at hx
    obtain ⟨rfl, rfl⟩ := hx
    obtain ⟨z, b, w, hz, hw, rfl⟩ := decodeItems_add hy
    unfold decodeItems decodeItems at hz
    simp only [Option.bind_eq_bind, Option.bind_eq_some_iff, Option.some.injEq, Prod.mk.injEq] at hz
    obtain ⟨⟨v, b'⟩, hv, -, ⟨rfl, rfl⟩, rfl, rfl⟩ := hz
    dsimp only at hv hw heq
    rw [hslice.drop] at hv
    have hno := misread_languages hs hbad hitems hv hw
    have hmem := mem_flatEntries hcount
    rw [heq, List.mem_append] at hmem
    rcases hmem with hmem | hmem
    · simp [before, flatEntries] at hmem
    · exact hno _ hmem _ rfl

end Metadata

end MmdbWriter
