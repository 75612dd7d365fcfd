import MmdbWriter.Proofs.Section

/-!
# Reading what lies in a data section

A value whose encoding lies at a place decodes there to itself and scans to its fields, if no array in
it has a length at which its header is misread; if one has, the reader finds something else.
-/

namespace MmdbWriter

open Mmdb (Field decode decodeItems decodeEntries decodeScalar scan scanItems)

namespace Value

/-- The value's own size is one three bytes can extend. -/
def SizeOk : Value → Prop
  | string s => (strBytes s).length < sizeLimit
  | bytes b => b.length < sizeLimit
  | map m => m.length < sizeLimit
  | array items => items.length < sizeLimit
  | _ => True

/-- The value is no array with a misread header. -/
def HeaderOk : Value → Prop
  | array items => ArrayLenOk items.length
  | _ => True

instance : DecidablePred SizeOk
  | string s => inferInstanceAs (Decidable ((strBytes s).length < sizeLimit))
  | bytes b => inferInstanceAs (Decidable (b.length < sizeLimit))
  | map m => inferInstanceAs (Decidable (m.length < sizeLimit))
  | array items => inferInstanceAs (Decidable (items.length < sizeLimit))
  | double _ | u16 _ | u32 _ | i32 _ | u64 _ | u128 _ | bool _ | float _ =>
    inferInstanceAs (Decidable True)

instance : DecidablePred HeaderOk
  | array items => inferInstanceAs (Decidable (ArrayLenOk items.length))
  | map _ | string _ | bytes _ | double _ | u16 _ | u32 _ | i32 _ | u64 _ | u128 _ | bool _
  | float _ => inferInstanceAs (Decidable True)

end Value

section Mono

variable {data : List UInt8} {dec dec' : List UInt8 → Option (Value × List UInt8)}

theorem decodeItems_mono (h : ∀ b r, dec b = some r → dec' b = some r) : ∀ (n : ℕ)
    (b : List UInt8) {r : List Value × List UInt8}, decodeItems dec n b = some r →
    decodeItems dec' n b = some r
  | 0, _, _, hr => hr
  | n + 1, b, r, hr => by
    unfold decodeItems at hr ⊢
    simp only [Option.bind_eq_bind, Option.bind_eq_some_iff] at hr ⊢
    obtain ⟨x, hx, y, hy, hr⟩ := hr
    exact ⟨x, h b x hx, y, decodeItems_mono h n x.2 hy, hr⟩

theorem decodeEntries_mono (h : ∀ b r, dec b = some r → dec' b = some r) : ∀ (n : ℕ)
    (b : List UInt8) {r : List (String × Value) × List UInt8}, decodeEntries dec n b = some r →
    decodeEntries dec' n b = some r
  | 0, _, _, hr => hr
  | n + 1, b, r, hr => by
    unfold decodeEntries at hr ⊢
    rcases hk : dec b with _ | ⟨k, b'⟩
    · rw [hk] at hr
      cases hr
    · rw [hk] at hr
      rw [h b _ hk]
      cases k <;> simp only [reduceCtorEq] at hr
      simp only [Option.bind_eq_bind, Option.bind_eq_some_iff] at hr ⊢
      obtain ⟨x, hx, y, hy, hr⟩ := hr
      exact ⟨x, h b' x hx, y, decodeEntries_mono h n x.2 hy, hr⟩

/-- More fuel does not change a value that was decoded. -/
theorem decode_mono : ∀ {fuel fuel' : ℕ}, fuel ≤ fuel' → ∀ {b : List UInt8} {r : Value × List UInt8},
    decode data fuel b = some r → decode data fuel' b = some r
  | 0, _, _, _, _, hr => by simp [decode] at hr
  | fuel + 1, 0, hle, _, _, _ => by omega
  | fuel + 1, fuel' + 1, hle, b, r, hr => by
    have ih : ∀ b r, decode data fuel b = some r → decode data fuel' b = some r :=
      fun _ _ => decode_mono (by omega)
    unfold decode at hr ⊢
    rcases hh : Mmdb.readHeader b with _ | ⟨_ | ⟨type, size⟩, b'⟩ <;> rw [hh] at hr
    · exact hr
    · simp only [Option.bind_eq_bind, Option.bind_eq_some_iff] at hr ⊢
      obtain ⟨x, hx, hr⟩ := hr
      exact ⟨x, ih _ _ hx, hr⟩
    · dsimp only at hr ⊢
      split_ifs at hr ⊢
      · simp only [Option.bind_eq_bind, Option.bind_eq_some_iff] at hr ⊢
        obtain ⟨x, hx, hr⟩ := hr
        exact ⟨x, decodeEntries_mono ih _ _ hx, hr⟩
      · simp only [Option.bind_eq_bind, Option.bind_eq_some_iff] at hr ⊢
        obtain ⟨x, hx, hr⟩ := hr
        exact ⟨x, decodeItems_mono ih _ _ hx, hr⟩
      all_goals exact hr

theorem decode_unique {fuel fuel' : ℕ} {b : List UInt8} {r r' : Value × List UInt8}
    (h : decode data fuel b = some r) (h' : decode data fuel' b = some r') : r = r' := by
  have h1 := decode_mono (le_max_left fuel fuel') h
  have h2 := decode_mono (le_max_right fuel fuel') h'
  rw [h1] at h2
  exact Option.some.inj h2

theorem length_decodeItems : ∀ (n : ℕ) (b : List UInt8) {r : List Value × List UInt8},
    decodeItems dec n b = some r → r.1.length = n
  | 0, b, r, h => by
    simp only [decodeItems, Option.some.injEq] at h
    rw [← h]
    rfl
  | n + 1, b, r, h => by
    unfold decodeItems at h
    simp only [Option.bind_eq_bind, Option.bind_eq_some_iff, Option.some.injEq] at h
    obtain ⟨x, -, y, hy, rfl⟩ := h
    simp [length_decodeItems n x.2 hy]

end Mono

section Scalar

theorem fromUTF8?_strBytes (s : String) : String.fromUTF8? ⟨(strBytes s).toArray⟩ = some s := by
  have h : (⟨(strBytes s).toArray⟩ : ByteArray) = s.toByteArray := by
    unfold strBytes
    rw [Array.toArray_toList]
  rw [h]
  unfold String.fromUTF8?
  rw [dif_pos s.isValidUTF8]
  rfl

/-- A value that holds no other is a header with its type and size, and a payload that spells it; a
boolean is a header alone. -/
theorem scalar_cases {v : Value} {x : List UInt8} (hx : scalarEncoding v = some x)
    (hs : v.SizeOk) :
    (∃ b, v = .bool b ∧ x = extendedHeader .bool b.toNat) ∨
      ∃ type header payload, x = header ++ payload ∧
        (∀ rest, Mmdb.readHeader (header ++ rest) = some (.data type payload.length, rest)) ∧
        type ≠ 7 ∧ type ≠ 11 ∧ type ≠ 14 ∧ decodeScalar type payload = some v := by
  have hnum : ∀ {k n : ℕ}, k ≤ 16 → n < 256 ^ k →
      Bytes.beNat (encodeUintTrimmed n k) = n ∧ (encodeUintTrimmed n k).length ≤ k :=
    fun hk hn => encodeUintTrimmed_spec hk hn
  cases v <;> simp only [scalarEncoding, Option.some.injEq, reduceCtorEq] at hx <;> subst hx
  case string s =>
    refine Or.inr ⟨2, _, _, rfl, readHeader_controlByte _ (by decide) (by decide) hs, by decide,
      by decide, by decide, ?_⟩
    unfold decodeScalar
    rw [fromUTF8?_strBytes]
    rfl
  case double bits =>
    refine Or.inr ⟨3, _, _, rfl, fun rest => ?_, by decide, by decide, by decide, ?_⟩
    · rw [length_beBytes]
      exact readHeader_controlByte _ (by decide) (by decide) (by decide) rest
    · show (if (beBytes 8 bits.toNat).length = 8 then
        some (Value.double (BitVec.ofNat 64 (Bytes.beNat (beBytes 8 bits.toNat)))) else none) = _
      rw [if_pos (length_beBytes 8 _), beNat_beBytes,
        Nat.mod_eq_of_lt (show bits.toNat < 256 ^ 8 from bits.isLt),
        BitVec.ofNat_toNat, BitVec.setWidth_eq]
  case bytes b =>
    exact Or.inr ⟨4, _, _, rfl, readHeader_controlByte _ (by decide) (by decide) hs, by decide,
      by decide, by decide, rfl⟩
  case u16 n =>
    have h := hnum (k := 2) (by decide) n.isLt
    refine Or.inr ⟨5, _, _, rfl, readHeader_controlByte _ (by decide) (by decide) ?_, by decide,
      by decide, by decide, ?_⟩
    · unfold sizeLimit
      omega
    · show (if _ ≤ 2 then some (Value.u16 (BitVec.ofNat 16 (Bytes.beNat _))) else none) = _
      rw [if_pos h.2, h.1, BitVec.ofNat_toNat, BitVec.setWidth_eq]
  case u32 n =>
    have h := hnum (k := 4) (by decide) n.isLt
    refine Or.inr ⟨6, _, _, rfl, readHeader_controlByte _ (by decide) (by decide) ?_, by decide,
      by decide, by decide, ?_⟩
    · unfold sizeLimit
      omega
    · show (if _ ≤ 4 then some (Value.u32 (BitVec.ofNat 32 (Bytes.beNat _))) else none) = _
      rw [if_pos h.2, h.1, BitVec.ofNat_toNat, BitVec.setWidth_eq]
  case i32 n =>
    have h := hnum (k := 4) (by decide) n.isLt
    refine Or.inr ⟨8, _, _, rfl, readHeader_extended .int32 ?_, by decide, by decide, by decide, ?_⟩
    · unfold encodeI32Trimmed
      omega
    · show (if _ ≤ 4 then some (Value.i32 (BitVec.ofNat 32 (Bytes.beNat _))) else none) = _
      unfold encodeI32Trimmed
      rw [if_pos h.2, h.1, BitVec.ofNat_toNat, BitVec.setWidth_eq]
  case u64 n =>
    have h := hnum (k := 8) (by decide) n.isLt
    refine Or.inr ⟨9, _, _, rfl, readHeader_extended .uint64 (by omega), by decide, by decide,
      by decide, ?_⟩
    show (if _ ≤ 8 then some (Value.u64 (BitVec.ofNat 64 (Bytes.beNat _))) else none) = _
    rw [if_pos h.2, h.1, BitVec.ofNat_toNat, BitVec.setWidth_eq]
  case u128 n =>
    have h := hnum (k := 16) (by decide) n.isLt
    refine Or.inr ⟨10, _, _, rfl, readHeader_extended .uint128 (by omega), by decide, by decide,
      by decide, ?_⟩
    show (if _ ≤ 16 then some (Value.u128 (BitVec.ofNat 128 (Bytes.beNat _))) else none) = _
    rw [if_pos h.2, h.1, BitVec.ofNat_toNat, BitVec.setWidth_eq]
  case bool b => exact Or.inl ⟨b, rfl, rfl⟩
  case float bits =>
    refine Or.inr ⟨15, _, _, rfl, fun rest => ?_, by decide, by decide, by decide, ?_⟩
    · rw [length_beBytes]
      exact readHeader_extended .float (by decide) rest
    · show (if (beBytes 4 bits.toNat).length = 4 then
        some (Value.float (BitVec.ofNat 32 (Bytes.beNat (beBytes 4 bits.toNat)))) else none) = _
      rw [if_pos (length_beBytes 4 _), beNat_beBytes,
        Nat.mod_eq_of_lt (show bits.toNat < 256 ^ 4 from bits.isLt),
        BitVec.ofNat_toNat, BitVec.setWidth_eq]

theorem decode_scalar {v : Value} {x : List UInt8} (hx : scalarEncoding v = some x) (hs : v.SizeOk)
    (data : List UInt8) (fuel : ℕ) (rest : List UInt8) :
    decode data (fuel + 1) (x ++ rest) = some (v, rest) := by
  unfold decode
  rcases scalar_cases hx hs with ⟨b, rfl, rfl⟩ | ⟨type, header, payload, rfl, hh, h7, h11, h14, hd⟩
  · rw [readHeader_extended .bool (by cases b <;> decide)]
    cases b <;> rfl
  · rw [List.append_assoc, hh]
    simp only [if_neg h7, if_neg h11, if_neg h14, Bytes.readChunk_append, Option.bind_eq_bind,
      Option.bind_some, hd]

theorem scan_scalar {v : Value} {x : List UInt8} (hx : scalarEncoding v = some x) (hs : v.SizeOk)
    (fuel pos : ℕ) (rest : List UInt8) :
    scan (fuel + 1) pos (x ++ rest) =
      some ([.value pos (pos + x.length)], pos + x.length, rest) := by
  unfold scan
  rcases scalar_cases hx hs with ⟨b, rfl, rfl⟩ | ⟨type, header, payload, rfl, hh, h7, h11, h14, -⟩
  · rw [readHeader_extended .bool (by cases b <;> decide)]
    have hlen : (extendedHeader .bool b.toNat ++ rest).length - rest.length =
        (extendedHeader .bool b.toNat).length := by
      rw [List.length_append, Nat.add_sub_cancel]
    simp only [hlen]
    have hchunk : Bytes.readChunk 0 rest = some ([], rest) := Bytes.readChunk_append [] rest
    have h14 : ExtendedType.bool.code.toNat + 7 = 14 := rfl
    simp [h14, hchunk, scanItems]
  · rw [List.append_assoc, hh]
    have hlen : (header ++ (payload ++ rest)).length - (payload ++ rest).length = header.length := by
      rw [List.length_append, Nat.add_sub_cancel]
    simp only [hlen, h7, h11, h14, if_false, or_self, Bytes.readChunk_append, Option.bind_eq_bind,
      Option.bind_some, scanItems]
    rw [List.length_append, Nat.add_assoc]

end Scalar

section Inline

variable {data : List UInt8}

open Value (SizeOk HeaderOk All AllArray AllMap)

/-- With enough fuel the value is read at `s`, and what is after it starts at `e`. -/
def ReadsAt (data : List UInt8) (v : Value) (s e : ℕ) : Prop :=
  ∃ n, ∀ fuel, n ≤ fuel → decode data fuel (data.drop s) = some (v, data.drop e)

theorem ReadsAt.of_slot {P : ℕ → ℕ → List Field → Prop} {v : Value} {s e : ℕ} {fields : List Field}
    (hP : ∀ s e fields, P s e fields → ReadsAt data v s e) (h : SlotOf data P s e fields) :
    ReadsAt data v s e := by
  rcases h with h | ⟨t, te, fields', hp, -, -, ht, hs, -⟩
  · exact hP s e fields h
  · obtain ⟨n, hn⟩ := hP t te fields' hp
    refine ⟨n + 1, fun fuel hf => ?_⟩
    obtain ⟨fuel, rfl⟩ := Nat.exists_eq_succ_of_ne_zero (show fuel ≠ 0 by omega)
    unfold decode
    rw [hs.drop, readHeader_pointer ht]
    simp only [hn fuel (by omega), Option.bind_eq_bind, Option.bind_some]

theorem readsAt_scalar {v : Value} {x : List UInt8} (hx : scalarEncoding v = some x) (hs : v.SizeOk)
    {s e : ℕ} {fields : List Field} (h : ScalarAt data x s e fields) : ReadsAt data v s e := by
  refine ⟨1, fun fuel hf => ?_⟩
  obtain ⟨fuel, rfl⟩ := Nat.exists_eq_succ_of_ne_zero (show fuel ≠ 0 by omega)
  rw [h.1.drop, Nat.succ_eq_add_one, decode_scalar hx hs]

/-- The key of an entry is a string, which has a header of its own. -/
theorem readsAt_key {k : String} (hk : SizeOk (.string k)) {s e : ℕ} {fields : List Field}
    (h : SlotOf data (ScalarAt data (blob .utf8 (strBytes k))) s e fields) :
    ReadsAt data (.string k) s e :=
  ReadsAt.of_slot (fun _ _ _ h => readsAt_scalar rfl hk h) h

/-- What lies inline is read back. -/
theorem readsAt_inline :
    (∀ v : Value, All HeaderOk v → All SizeOk v → ∀ s e fields, Inline data v s e fields →
      ReadsAt data v s e) ∧
    (∀ items : List Value, AllArray HeaderOk items → AllArray SizeOk items → ∀ s e fields,
      ItemsAt data items s e fields → ∃ n, ∀ fuel, n ≤ fuel →
        decodeItems (decode data fuel) items.length (data.drop s) = some (items, data.drop e)) ∧
    ∀ entries : List (String × Value), AllMap HeaderOk entries → AllMap SizeOk entries →
      ∀ s e fields, EntriesAt data entries s e fields → ∃ n, ∀ fuel, n ≤ fuel →
        decodeEntries (decode data fuel) entries.length (data.drop s) =
          some (entries, data.drop e) := by
  refine Value.induct ?_ ?_ ?_ ?_ ?_ ?_ ?_
  · intro v x hx _ hs s e fields h
    have hsize : v.SizeOk := by
      cases v <;> first | exact hs | cases hx
    exact readsAt_scalar hx hsize ((inline_scalar hx).mp h)
  · intro m ih hh hs s e fields h
    rw [Inline] at h
    obtain ⟨h', inner, hslice, he, -⟩ := h
    obtain ⟨n, hn⟩ := ih hh.2 hs.2 _ _ _ he
    refine ⟨n + 1, fun fuel hf => ?_⟩
    obtain ⟨fuel, rfl⟩ := Nat.exists_eq_succ_of_ne_zero (show fuel ≠ 0 by omega)
    unfold decode
    have hread := readHeader_controlByte .map (by decide) (by decide) hs.1 (data.drop h')
    rw [hslice.drop, hread]
    simp only [show TypeTag.map.code.toNat = 7 from rfl, if_true, hn fuel (by omega),
      Option.bind_eq_bind, Option.bind_some]
  · intro items ih hh hs s e fields h
    rw [Inline] at h
    obtain ⟨h', inner, hslice, he, -⟩ := h
    obtain ⟨n, hn⟩ := ih hh.2 hs.2 _ _ _ he
    refine ⟨n + 1, fun fuel hf => ?_⟩
    obtain ⟨fuel, rfl⟩ := Nat.exists_eq_succ_of_ne_zero (show fuel ≠ 0 by omega)
    unfold decode
    have hread := readHeader_array hs.1 (data.drop h')
    rw [(arrayHeader_eq_iff hs.1).mpr hh.1] at hread
    rw [hslice.drop, hread]
    simp only [Nat.reduceEqDiff, if_false, if_true, hn fuel (by omega), Option.bind_eq_bind,
      Option.bind_some]
  · intro _ _ s e fields h
    rw [ItemsAt] at h
    exact ⟨0, fun fuel _ => by rw [h.1]; rfl⟩
  · intro v items ih ih' hh hs s e fields h
    rw [ItemsAt] at h
    obtain ⟨m, f₁, f₂, h₁, h₂, -⟩ := h
    obtain ⟨n, hn⟩ := ReadsAt.of_slot (ih hh.1 hs.1) h₁
    obtain ⟨n', hn'⟩ := ih' hh.2 hs.2 _ _ _ h₂
    refine ⟨max n n', fun fuel hf => ?_⟩
    rw [List.length_cons, decodeItems]
    simp only [hn fuel (by omega), hn' fuel (by omega), Option.bind_eq_bind, Option.bind_some]
  · intro _ _ s e fields h
    rw [EntriesAt] at h
    exact ⟨0, fun fuel _ => by rw [h.1]; rfl⟩
  · intro k v entries ih ih' hh hs s e fields h
    rw [EntriesAt] at h
    obtain ⟨m, m', f₁, f₂, f₃, h₁, h₂, h₃, -⟩ := h
    obtain ⟨n, hn⟩ := readsAt_key hs.1 h₁
    obtain ⟨n', hn'⟩ := ReadsAt.of_slot (ih hh.2.1 hs.2.1) h₂
    obtain ⟨n'', hn''⟩ := ih' hh.2.2 hs.2.2 _ _ _ h₃
    refine ⟨max n (max n' n''), fun fuel hf => ?_⟩
    rw [List.length_cons, decodeEntries]
    simp only [hn fuel (by omega), hn' fuel (by omega), hn'' fuel (by omega), Option.bind_eq_bind,
      Option.bind_some]

/-- The value is not what is read at `s`. -/
def MisreadAt (data : List UInt8) (v : Value) (s : ℕ) : Prop :=
  ∀ fuel rest, decode data fuel (data.drop s) ≠ some (v, rest)

theorem MisreadAt.of_slot {P : ℕ → ℕ → List Field → Prop} {v : Value} {s e : ℕ}
    {fields : List Field} (hP : ∀ s e fields, P s e fields → MisreadAt data v s)
    (h : SlotOf data P s e fields) : MisreadAt data v s := by
  rcases h with h | ⟨t, te, fields', hp, -, -, ht, hs, -⟩
  · exact hP s e fields h
  · intro fuel rest hd
    cases fuel with
    | zero => cases hd
    | succ fuel =>
      unfold decode at hd
      rw [hs.drop, readHeader_pointer ht] at hd
      simp only [Option.bind_eq_bind, Option.bind_eq_some_iff, Option.some.injEq,
        Prod.mk.injEq] at hd
      obtain ⟨⟨v', r⟩, hd, rfl, -⟩ := hd
      exact hP t te fields' hp fuel r hd

/-- The value at a place is read back or misread; where it is read back, what follows is read next. -/
theorem ReadsAt.eq {v : Value} {s e fuel : ℕ} {r : Value × List UInt8} (h : ReadsAt data v s e)
    (hr : decode data fuel (data.drop s) = some r) : r = (v, data.drop e) := by
  obtain ⟨n, hn⟩ := h
  exact decode_unique hr (hn n le_rfl)

/-- An array with a misread header spoils every value it is in. -/
theorem misreadAt_inline :
    (∀ v : Value, ¬ All HeaderOk v → All SizeOk v → ∀ s e fields, Inline data v s e fields →
      MisreadAt data v s) ∧
    (∀ items : List Value, ¬ AllArray HeaderOk items → AllArray SizeOk items → ∀ s e fields,
      ItemsAt data items s e fields → ∀ fuel rest,
        decodeItems (decode data fuel) items.length (data.drop s) ≠ some (items, rest)) ∧
    ∀ entries : List (String × Value), ¬ AllMap HeaderOk entries → AllMap SizeOk entries →
      ∀ s e fields, EntriesAt data entries s e fields → ∀ fuel rest,
        decodeEntries (decode data fuel) entries.length (data.drop s) ≠ some (entries, rest) := by
  refine Value.induct ?_ ?_ ?_ ?_ ?_ ?_ ?_
  · intro v x hx hh
    refine absurd ?_ hh
    cases v <;> trivial
  · intro m ih hh hs s e fields h fuel rest hd
    rw [Inline] at h
    obtain ⟨h', inner, hslice, he, -⟩ := h
    have hm : ¬ AllMap HeaderOk m := fun hm => hh ⟨trivial, hm⟩
    cases fuel with
    | zero => cases hd
    | succ fuel =>
      unfold decode at hd
      have hread := readHeader_controlByte .map (by decide) (by decide) hs.1 (data.drop h')
      rw [hslice.drop, hread] at hd
      simp only [show TypeTag.map.code.toNat = 7 from rfl, if_true, Option.bind_eq_bind,
        Option.bind_eq_some_iff, Option.some.injEq, Prod.mk.injEq, Value.map.injEq] at hd
      obtain ⟨⟨m', r⟩, hd, rfl, -⟩ := hd
      exact ih hm hs.2 _ _ _ he fuel r hd
  · intro items ih hh hs s e fields h fuel rest hd
    rw [Inline] at h
    obtain ⟨h', inner, hslice, he, -⟩ := h
    have hread := readHeader_array hs.1 (data.drop h')
    have hiff := arrayHeader_eq_iff hs.1
    generalize arrayHeader items.length = header at hread hiff
    obtain ⟨type, size⟩ := header
    cases fuel with
    | zero => cases hd
    | succ fuel =>
      unfold decode at hd
      rw [hslice.drop, hread] at hd
      dsimp only at hd
      split_ifs at hd with h7 h11 h14 h0 h1
      · simp [Option.bind_eq_some_iff] at hd
      · simp only [Option.bind_eq_bind, Option.bind_eq_some_iff, Option.some.injEq, Prod.mk.injEq,
          Value.array.injEq] at hd
        obtain ⟨⟨items', r⟩, hd, rfl, -⟩ := hd
        obtain rfl : items'.length = size := length_decodeItems _ _ hd
        have hok : ArrayLenOk items'.length := hiff.mp (by rw [h11])
        have hm : ¬ AllArray HeaderOk items' := fun hm => hh ⟨hok, hm⟩
        exact ih hm hs.2 _ _ _ he fuel r hd
      · simp at hd
      · simp at hd
      · simp only [Option.bind_eq_bind, Option.bind_eq_some_iff, Option.some.injEq,
          Prod.mk.injEq] at hd
        obtain ⟨⟨payload, r⟩, -, v, hv, rfl, -⟩ := hd
        unfold decodeScalar at hv
        split at hv <;> first | (split_ifs at hv <;> simp at hv) | simp at hv
  · intro hh
    exact absurd trivial hh
  · intro v items ih ih' hh hs s e fields h fuel rest hd
    rw [ItemsAt] at h
    obtain ⟨m, f₁, f₂, h₁, h₂, -⟩ := h
    rw [List.length_cons, decodeItems] at hd
    simp only [Option.bind_eq_bind, Option.bind_eq_some_iff, Option.some.injEq, Prod.mk.injEq,
      List.cons.injEq] at hd
    obtain ⟨⟨v', b⟩, hv, ⟨items', b'⟩, hitems, ⟨rfl, rfl⟩, -⟩ := hd
    by_cases hok : All HeaderOk v'
    · have hb := (ReadsAt.of_slot (readsAt_inline.1 v' hok hs.1) h₁).eq hv
      rw [Prod.mk.injEq] at hb
      rw [hb.2] at hitems
      exact ih' (fun hm => hh ⟨hok, hm⟩) hs.2 _ _ _ h₂ fuel b' hitems
    · exact MisreadAt.of_slot (ih hok hs.1) h₁ fuel b hv
  · intro hh
    exact absurd trivial hh
  · intro k v entries ih ih' hh hs s e fields h fuel rest hd
    rw [EntriesAt] at h
    obtain ⟨m, m', f₁, f₂, f₃, h₁, h₂, h₃, -⟩ := h
    rw [List.length_cons, decodeEntries] at hd
    rcases hk : decode data fuel (data.drop s) with _ | ⟨key, b⟩ <;> rw [hk] at hd
    · cases hd
    have hkey := (readsAt_key hs.1 h₁).eq hk
    rw [Prod.mk.injEq] at hkey
    obtain ⟨rfl, rfl⟩ := hkey
    simp only [Option.bind_eq_bind, Option.bind_eq_some_iff, Option.some.injEq, Prod.mk.injEq,
      List.cons.injEq, true_and] at hd
    obtain ⟨⟨v', b⟩, hv, ⟨entries', b'⟩, hentries, ⟨rfl, rfl⟩, -⟩ := hd
    by_cases hok : All HeaderOk v'
    · have hb := (ReadsAt.of_slot (readsAt_inline.1 v' hok hs.2.1) h₂).eq hv
      rw [Prod.mk.injEq] at hb
      rw [hb.2] at hentries
      exact ih' (fun hm => hh ⟨trivial, hok, hm⟩) hs.2.2 _ _ _ h₃ fuel b' hentries
    · exact MisreadAt.of_slot (ih hok hs.2.1) h₂ fuel b hv

/-- With enough fuel the fields of the value at `s` are listed, up to `e`. -/
def ScansAt (data : List UInt8) (s e : ℕ) (fields : List Field) : Prop :=
  ∃ n, ∀ fuel, n ≤ fuel → scan fuel s (data.drop s) = some (fields, e, data.drop e)

theorem ScansAt.of_slot {P : ℕ → ℕ → List Field → Prop} {s e : ℕ} {fields : List Field}
    (hP : ∀ s e fields, P s e fields → ScansAt data s e fields) (h : SlotOf data P s e fields) :
    ScansAt data s e fields := by
  rcases h with h | ⟨t, te, fields', -, -, -, ht, hs, rfl⟩
  · exact hP s e fields h
  · refine ⟨1, fun fuel hf => ?_⟩
    obtain ⟨fuel, rfl⟩ := Nat.exists_eq_succ_of_ne_zero (show fuel ≠ 0 by omega)
    unfold scan
    rw [hs.drop, readHeader_pointer ht]
    simp only [List.length_append, Nat.add_sub_cancel]
    rw [← hs.le.1]

theorem scansAt_scalar {v : Value} {x : List UInt8} (hx : scalarEncoding v = some x) (hs : v.SizeOk)
    {s e : ℕ} {fields : List Field} (h : ScalarAt data x s e fields) : ScansAt data s e fields := by
  refine ⟨1, fun fuel hf => ?_⟩
  obtain ⟨fuel, rfl⟩ := Nat.exists_eq_succ_of_ne_zero (show fuel ≠ 0 by omega)
  rw [h.1.drop, Nat.succ_eq_add_one, scan_scalar hx hs, h.2, ← h.1.le.1]

theorem ScansAt.of_header {s h e count type size : ℕ} {header : List UInt8} {inner : List Field}
    (hslice : Slice data s h header)
    (hread : Mmdb.readHeader (header ++ data.drop h) = some (.data type size, data.drop h))
    (hcount : (type = 7 ∧ count = 2 * size) ∨ (type = 11 ∧ count = size))
    (hin : ∃ n, ∀ fuel, n ≤ fuel →
      scanItems (scan fuel) count h (data.drop h) = some (inner, e, data.drop e)) :
    ScansAt data s e (.value s e :: inner) := by
  obtain ⟨n, hn⟩ := hin
  refine ⟨n + 1, fun fuel hf => ?_⟩
  obtain ⟨fuel, rfl⟩ := Nat.exists_eq_succ_of_ne_zero (show fuel ≠ 0 by omega)
  have hpos : s + ((header ++ data.drop h).length - (data.drop h).length) = h := by
    rw [List.length_append, Nat.add_sub_cancel, hslice.le.1]
  have hchunk : Bytes.readChunk 0 (data.drop h) = some ([], data.drop h) :=
    Bytes.readChunk_append [] _
  unfold scan
  rw [hslice.drop, hread]
  simp only [hpos]
  rcases hcount with ⟨rfl, rfl⟩ | ⟨rfl, rfl⟩ <;>
    simp [hchunk, hn fuel (by omega)]

/-- What lies inline is scanned to its fields. -/
theorem scansAt_inline :
    (∀ v : Value, All HeaderOk v → All SizeOk v → ∀ s e fields, Inline data v s e fields →
      ScansAt data s e fields) ∧
    (∀ items : List Value, AllArray HeaderOk items → AllArray SizeOk items → ∀ s e fields,
      ItemsAt data items s e fields → ∃ n, ∀ fuel, n ≤ fuel →
        scanItems (scan fuel) items.length s (data.drop s) = some (fields, e, data.drop e)) ∧
    ∀ entries : List (String × Value), AllMap HeaderOk entries → AllMap SizeOk entries →
      ∀ s e fields, EntriesAt data entries s e fields → ∃ n, ∀ fuel, n ≤ fuel →
        scanItems (scan fuel) (2 * entries.length) s (data.drop s) =
          some (fields, e, data.drop e) := by
  refine Value.induct ?_ ?_ ?_ ?_ ?_ ?_ ?_
  · intro v x hx _ hs s e fields h
    have hsize : v.SizeOk := by
      cases v <;> first | exact hs | cases hx
    exact scansAt_scalar hx hsize ((inline_scalar hx).mp h)
  · intro m ih hh hs s e fields h
    rw [Inline] at h
    obtain ⟨h', inner, hslice, he, rfl⟩ := h
    exact ScansAt.of_header hslice (readHeader_controlByte _ (by decide) (by decide) hs.1 _)
      (Or.inl ⟨rfl, rfl⟩) (ih hh.2 hs.2 _ _ _ he)
  · intro items ih hh hs s e fields h
    rw [Inline] at h
    obtain ⟨h', inner, hslice, he, rfl⟩ := h
    have hread := readHeader_array hs.1 (data.drop h')
    rw [(arrayHeader_eq_iff hs.1).mpr hh.1] at hread
    exact ScansAt.of_header hslice hread (Or.inr ⟨rfl, rfl⟩) (ih hh.2 hs.2 _ _ _ he)
  · intro _ _ s e fields h
    rw [ItemsAt] at h
    exact ⟨0, fun fuel _ => by rw [h.1, h.2]; rfl⟩
  · intro v items ih ih' hh hs s e fields h
    rw [ItemsAt] at h
    obtain ⟨m, f₁, f₂, h₁, h₂, rfl⟩ := h
    obtain ⟨n, hn⟩ := ScansAt.of_slot (ih hh.1 hs.1) h₁
    obtain ⟨n', hn'⟩ := ih' hh.2 hs.2 _ _ _ h₂
    refine ⟨max n n', fun fuel hf => ?_⟩
    rw [List.length_cons, scanItems]
    simp only [hn fuel (by omega), hn' fuel (by omega), Option.bind_eq_bind, Option.bind_some]
  · intro _ _ s e fields h
    rw [EntriesAt] at h
    exact ⟨0, fun fuel _ => by rw [h.1, h.2]; rfl⟩
  · intro k v entries ih ih' hh hs s e fields h
    rw [EntriesAt] at h
    obtain ⟨m, m', f₁, f₂, f₃, h₁, h₂, h₃, rfl⟩ := h
    obtain ⟨n, hn⟩ := ScansAt.of_slot
      (fun _ _ _ h => scansAt_scalar (v := .string k) rfl hs.1 h) h₁
    obtain ⟨n', hn'⟩ := ScansAt.of_slot (ih hh.2.1 hs.2.1) h₂
    obtain ⟨n'', hn''⟩ := ih' hh.2.2 hs.2.2 _ _ _ h₃
    refine ⟨max n (max n' n''), fun fuel hf => ?_⟩
    show scanItems (scan fuel) (2 * entries.length + 1 + 1) s (data.drop s) = _
    simp only [scanItems, hn fuel (by omega), hn' fuel (by omega), hn'' fuel (by omega), Option.bind_eq_bind,
      Option.bind_some]

end Inline

end MmdbWriter
