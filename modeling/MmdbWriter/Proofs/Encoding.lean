import MmdbWriter.DataSection
import MmdbWriter.Mmdb

/-!
# Headers and payloads

What the reader makes of the bytes the encoder writes for headers, pointers and numbers. An array's
extended header is the exception: its type byte comes after the bytes that extend the size.
-/

namespace MmdbWriter

open Bytes (beNat readBe readChunk)

section Numbers

theorem beBytes_succ (k n : ℕ) : beBytes (k + 1) n = UInt8.ofNat (n >>> (8 * k)) :: beBytes k n := by
  unfold beBytes
  rw [List.range_succ_eq_map, List.map_cons, List.map_map]
  congr 1
  refine List.map_congr_left fun i _ => ?_
  have h : k + 1 - 1 - (i + 1) = k - 1 - i := by omega
  simp only [Function.comp, Nat.succ_eq_add_one, h]

@[simp] theorem length_beBytes (k n : ℕ) : (beBytes k n).length = k := by simp [beBytes]

theorem beBytes_one (n : ℕ) : beBytes 1 n = [UInt8.ofNat n] := rfl

theorem beBytes_two (n : ℕ) : beBytes 2 n = [UInt8.ofNat (n >>> 8), UInt8.ofNat n] := rfl

theorem beBytes_three (n : ℕ) :
    beBytes 3 n = [UInt8.ofNat (n >>> 16), UInt8.ofNat (n >>> 8), UInt8.ofNat n] := rfl

theorem beNat_beBytes (k n : ℕ) : beNat (beBytes k n) = n % 256 ^ k := by
  induction k with
  | zero => simp [beBytes, Nat.mod_one]
  | succ k ih =>
    have hpow : 2 ^ (8 * k) = 256 ^ k := pow_mul 2 8 k
    rw [beBytes_succ, Bytes.beNat_cons, length_beBytes, ih, Nat.mod_pow_succ, UInt8.toNat_ofNat',
      Nat.shiftRight_eq_div_pow, hpow]
    ring

theorem drop_beBytes (j k n : ℕ) : (beBytes (k + j) n).drop j = beBytes k n := by
  induction j with
  | zero => rfl
  | succ j ih =>
    rw [← Nat.add_assoc, beBytes_succ, List.drop_succ_cons, ih]

/-- Trimming the zeros at the front keeps the number, in no more bytes than it may take. -/
theorem encodeUintTrimmed_spec {value maxBytes : ℕ} (hmax : maxBytes ≤ 16)
    (hv : value < 256 ^ maxBytes) : beNat (encodeUintTrimmed value maxBytes) = value ∧
      (encodeUintTrimmed value maxBytes).length ≤ maxBytes := by
  unfold encodeUintTrimmed
  by_cases h0 : value = 0
  · simp [h0]
  · have hdrop := drop_beBytes (16 - maxBytes) maxBytes value
    rw [Nat.add_sub_cancel' hmax] at hdrop
    rw [if_neg h0, hdrop, Bytes.beNat_dropWhile, beNat_beBytes, Nat.mod_eq_of_lt hv]
    refine ⟨rfl, ?_⟩
    have := (List.dropWhile_sublist (· == 0) (l := beBytes maxBytes value)).length_le
    rwa [length_beBytes] at this

theorem readBe_beBytes {k n : ℕ} (hn : n < 256 ^ k) (rest : List UInt8) :
    readBe k (beBytes k n ++ rest) = some (n, rest) := by
  have := Bytes.readBe_append (beBytes k n) rest
  rwa [length_beBytes, beNat_beBytes, Nat.mod_eq_of_lt hn] at this

end Numbers

section Control

theorem toNat_controlByte (tag : TypeTag) (s : Fin 32) :
    ((tag.code <<< 5) ||| UInt8.ofNat s).toNat = tag.code.toNat * 32 + s := by
  revert s
  cases tag <;> decide +kernel

/-- The bytes that extend a size. -/
def sizeBytes (size : ℕ) : List UInt8 :=
  if size < 29 then [] else if size < 285 then beBytes 1 (size - 29)
  else if size < 65821 then beBytes 2 (size - 285) else beBytes 3 (size - 65821)

/-- The size in the control byte. -/
def sizeField (size : ℕ) : ℕ :=
  if size < 29 then size else if size < 285 then 29 else if size < 65821 then 30 else 31

/-- The limit of the sizes three bytes can extend. -/
def sizeLimit : ℕ := 16843037

theorem sizeField_lt (size : ℕ) : sizeField size < 32 := by
  unfold sizeField
  split_ifs <;> omega

theorem controlByte_eq (tag : TypeTag) {size : ℕ} (h : size < sizeLimit) :
    ∃ c : UInt8, c.toNat = tag.code.toNat * 32 + sizeField size ∧
      controlByte tag size = c :: sizeBytes size := by
  unfold sizeLimit at h
  refine ⟨(tag.code <<< 5) ||| UInt8.ofNat (sizeField size),
    toNat_controlByte tag ⟨sizeField size, sizeField_lt size⟩, ?_⟩
  unfold controlByte sizeField sizeBytes
  split_ifs <;> try omega
  · rfl
  · simp only [beBytes_succ]
    rfl
  · rfl
  · have hmin : u32FromUsize (size - 65821) = size - 65821 := by
      unfold u32FromUsize u32Max
      omega
    rw [hmin, drop_beBytes 1 3]
    rfl

theorem readSize_sizeBytes (type : ℕ) {size : ℕ} (h : size < sizeLimit) (rest : List UInt8) :
    Mmdb.readSize type (sizeField size) (sizeBytes size ++ rest) = some (.data type size, rest) := by
  unfold sizeLimit at h
  unfold Mmdb.readSize sizeField sizeBytes
  by_cases h1 : size < 29
  · simp [h1]
  by_cases h2 : size < 285
  · simp only [h1, h2, if_false, if_true]
    rw [if_neg (by omega), readBe_beBytes (by omega)]
    simp only [Option.bind_eq_bind, Option.bind_some]
    rw [show 29 + (size - 29) = size by omega]
  by_cases h3 : size < 65821
  · simp only [h1, h2, h3, if_false, if_true]
    rw [if_neg (by omega), readBe_beBytes (by omega)]
    simp only [Option.bind_eq_bind, Option.bind_some]
    norm_num
    omega
  · simp only [h1, h2, h3, if_false]
    rw [if_neg (by omega), readBe_beBytes (by omega)]
    simp only [Option.bind_eq_bind, Option.bind_some]
    norm_num
    omega

/-- The header of a value of a type that is not extended. -/
theorem readHeader_controlByte (tag : TypeTag) (hext : tag ≠ .extended) (hptr : tag ≠ .pointer)
    {size : ℕ} (h : size < sizeLimit) (rest : List UInt8) :
    Mmdb.readHeader (controlByte tag size ++ rest) = some (.data tag.code.toNat size, rest) := by
  obtain ⟨c, hc, heq⟩ := controlByte_eq tag h
  have hs := sizeField_lt size
  have hdiv : c.toNat / 32 = tag.code.toNat := by omega
  have hmod : c.toNat % 32 = sizeField size := by omega
  rw [heq, List.cons_append]
  unfold Mmdb.readHeader
  simp only [hdiv, hmod]
  rw [if_neg (by cases tag <;> simp_all [TypeTag.code]),
    if_neg (by cases tag <;> simp_all [TypeTag.code])]
  exact readSize_sizeBytes _ h rest

theorem readHeader_extended (ext : ExtendedType) {size : ℕ} (h : size < 29) (rest : List UInt8) :
    Mmdb.readHeader (extendedHeader ext size ++ rest) =
      some (.data (ext.code.toNat + 7) size, rest) := by
  obtain ⟨c, hc, heq⟩ := controlByte_eq .extended (show size < sizeLimit by unfold sizeLimit; omega)
  have hfield : sizeField size = size := by
    unfold sizeField
    rw [if_pos h]
  have hbytes : sizeBytes size = [] := by
    unfold sizeBytes
    rw [if_pos h]
  have hc' : c.toNat = size := by
    rw [hc, hfield]
    show 0 * 32 + size = size
    omega
  unfold extendedHeader
  rw [heq, hbytes]
  unfold Mmdb.readHeader Mmdb.readSize
  simp only [List.cons_append, List.nil_append, hc']
  rw [if_neg (by omega), if_pos (by omega), Nat.mod_eq_of_lt (by omega), if_pos h]

/-- The lengths at which the misplaced type byte of an array reads as it should. -/
def ArrayLenOk (n : ℕ) : Prop := n < 29 ∨ n = 33 ∨ n = 1313 ∨ n = 328993

instance (n : ℕ) : Decidable (ArrayLenOk n) := inferInstanceAs (Decidable (_ ∨ _))

theorem beNat_three (a b c : UInt8) :
    beNat [a, b, c] = (a.toNat * 256 + b.toNat) * 256 + c.toNat := by simp [beNat]

theorem toNat_ofNat_shiftRight (n k : ℕ) :
    (UInt8.ofNat (n >>> k)).toNat = n / 2 ^ k % 256 := by
  rw [UInt8.toNat_ofNat', Nat.shiftRight_eq_div_pow]

/-- The type and the size a reader finds in the header of an array of `n` items. From 29 items on it
takes the first of the size bytes for the type, and the array's type for the last of the size. -/
def arrayHeader (n : ℕ) : ℕ × ℕ :=
  if n < 29 then (11, n)
  else if n < 285 then ((n - 29) % 256 + 7, 29 + 4)
  else if n < 65821 then ((n - 285) / 256 % 256 + 7, 285 + ((n - 285) % 256 * 256 + 4))
  else ((n - 65821) / 65536 % 256 + 7, 65821 + ((n - 65821) % 65536 * 256 + 4))

/-- What is found is an array of `n` items at a few lengths. -/
theorem arrayHeader_eq_iff {n : ℕ} (h : n < sizeLimit) : arrayHeader n = (11, n) ↔ ArrayLenOk n := by
  unfold sizeLimit at h
  unfold arrayHeader ArrayLenOk
  by_cases h1 : n < 29
  · simp [h1]
  by_cases h2 : n < 285
  · rw [if_neg h1, if_pos h2, Prod.mk.injEq]
    omega
  by_cases h3 : n < 65821
  · rw [if_neg h1, if_neg h2, if_pos h3, Prod.mk.injEq]
    omega
  · rw [if_neg h1, if_neg h2, if_neg h3, Prod.mk.injEq]
    -- the high byte and the two low bytes of what the size goes on with
    obtain ⟨a, b, hb, rfl⟩ : ∃ a b, b < 65536 ∧ n = 65821 + (65536 * a + b) :=
      ⟨(n - 65821) / 65536, (n - 65821) % 65536, Nat.mod_lt _ (by decide), by omega⟩
    rw [Nat.add_sub_cancel_left, Nat.mul_add_div (by decide), Nat.div_eq_of_lt hb,
      Nat.mul_add_mod, Nat.mod_eq_of_lt hb, Nat.mod_eq_of_lt (by omega)]
    omega

theorem readHeader_array {n : ℕ} (h : n < sizeLimit) (rest : List UInt8) :
    Mmdb.readHeader (extendedHeader .array n ++ rest) =
      some (.data (arrayHeader n).1 (arrayHeader n).2, rest) := by
  unfold arrayHeader
  by_cases h1 : n < 29
  · rw [if_pos h1]
    exact readHeader_extended .array h1 rest
  unfold sizeLimit at h
  obtain ⟨c, hc, heq⟩ := controlByte_eq .extended (show n < sizeLimit by unfold sizeLimit; omega)
  have hcode : TypeTag.code .extended = 0 := rfl
  have harr : ExtendedType.code .array = 4 := rfl
  have hread : ∀ (t : UInt8) (more : List UInt8), sizeBytes n ++ [4] = t :: more →
      more.length = sizeField n - 28 →
      Mmdb.readHeader (extendedHeader .array n ++ rest) =
        some (.data (t.toNat + 7) ((if sizeField n = 29 then 29 else
          if sizeField n = 30 then 285 else 65821) + beNat more), rest) := by
    intro t more hmore hlen
    have hs := sizeField_lt n
    have hs' : 29 ≤ sizeField n := by
      unfold sizeField
      split_ifs <;> omega
    have hbytes : extendedHeader .array n ++ rest = c :: t :: (more ++ rest) := by
      unfold extendedHeader
      rw [heq, harr, List.append_assoc, List.cons_append, ← List.append_assoc, hmore]
      rfl
    have hc' : c.toNat = sizeField n := by
      rw [hc, hcode]
      simp
    rw [hbytes]
    unfold Mmdb.readHeader Mmdb.readSize
    simp only [hc']
    rw [if_neg (by omega), if_pos (by omega), Nat.mod_eq_of_lt hs, if_neg (by omega), ← hlen,
      Bytes.readBe_append]
    rfl
  rw [if_neg h1]
  by_cases h2 : n < 285
  · have hf : sizeField n = 29 := by simp [sizeField, h1, h2]
    have hb : sizeBytes n = [UInt8.ofNat (n - 29)] := by
      simp [sizeBytes, h1, h2, beBytes_one]
    rw [if_pos h2, hread (UInt8.ofNat (n - 29)) [4] (by rw [hb]; rfl) (by rw [hf]; rfl), hf,
      UInt8.toNat_ofNat']
    rfl
  rw [if_neg h2]
  by_cases h3 : n < 65821
  · have hf : sizeField n = 30 := by simp [sizeField, h1, h2, h3]
    have hb : sizeBytes n = [UInt8.ofNat ((n - 285) >>> 8), UInt8.ofNat (n - 285)] := by
      simp [sizeBytes, h1, h2, h3, beBytes_two]
    have htwo : beNat [UInt8.ofNat (n - 285), 4] = (n - 285) % 256 * 256 + 4 := by simp [beNat]
    rw [if_pos h3, hread (UInt8.ofNat ((n - 285) >>> 8)) [UInt8.ofNat (n - 285), 4]
      (by rw [hb]; rfl) (by rw [hf]; rfl), hf, toNat_ofNat_shiftRight, htwo]
    rfl
  · have hf : sizeField n = 31 := by simp [sizeField, h1, h2, h3]
    have hb : sizeBytes n = [UInt8.ofNat ((n - 65821) >>> 16), UInt8.ofNat ((n - 65821) >>> 8),
        UInt8.ofNat (n - 65821)] := by
      simp [sizeBytes, h1, h2, h3, beBytes_three]
    have hthree : beNat [UInt8.ofNat ((n - 65821) >>> 8), UInt8.ofNat (n - 65821), 4] =
        (n - 65821) % 65536 * 256 + 4 := by
      rw [beNat_three, toNat_ofNat_shiftRight, UInt8.toNat_ofNat',
        show (4 : UInt8).toNat = 4 from rfl]
      omega
    rw [if_neg h3, hread (UInt8.ofNat ((n - 65821) >>> 16))
      [UInt8.ofNat ((n - 65821) >>> 8), UInt8.ofNat (n - 65821), 4]
      (by rw [hb]; rfl) (by rw [hf]; rfl), hf, toNat_ofNat_shiftRight, hthree]
    rfl

end Control

section Pointer

theorem length_pointerEncoding (offset : ℕ) :
    (pointerEncoding offset).length = pointerBytes offset := by
  unfold pointerEncoding pointerBytes
  split_ifs <;> simp

theorem toNat_pointerByte (k : Fin 4) (v : Fin 8) :
    ((TypeTag.pointer.code <<< 5) ||| (UInt8.ofNat k <<< 3) ||| UInt8.ofNat v).toNat =
      32 + k * 8 + v := by
  revert k v
  decide +kernel

theorem and_seven (n : ℕ) : n &&& 0b111 = n % 8 := Nat.and_two_pow_sub_one_eq_mod n 3

theorem and_byte (n : ℕ) : n &&& 0xFF = n % 256 := Nat.and_two_pow_sub_one_eq_mod n 8

theorem readHeader_pointerByte {c : UInt8} {k v : ℕ} (hc : c.toNat = 32 + k * 8 + v) (hk : k < 4)
    (hv : v < 8) {more : List UInt8} (hlen : more.length = k + 1) (rest : List UInt8) :
    Mmdb.readHeader (c :: more ++ rest) =
      some (.pointer (if k = 0 then v * 256 ^ (k + 1) + beNat more
        else if k = 1 then v * 256 ^ (k + 1) + beNat more + 2048
        else if k = 2 then v * 256 ^ (k + 1) + beNat more + 526336
        else beNat more), rest) := by
  have h1 : c.toNat / 32 = 1 := by omega
  have h2 : c.toNat / 8 % 4 = k := by omega
  have h3 : c.toNat % 8 = v := by omega
  rw [List.cons_append]
  unfold Mmdb.readHeader Mmdb.readPointer
  simp only [h1, h2, h3, if_true]
  rw [← hlen, Bytes.readBe_append]
  rfl

/-- A pointer reads as its target. -/
theorem readHeader_pointer {offset : ℕ} (h : offset < 2 ^ 32) (rest : List UInt8) :
    Mmdb.readHeader (pointerEncoding offset ++ rest) = some (.pointer offset, rest) := by
  unfold pointerEncoding
  by_cases h1 : offset < 2048
  · have hv : offset >>> 8 < 8 := by
      rw [Nat.shiftRight_eq_div_pow]
      omega
    have hc : ((TypeTag.pointer.code <<< 5) ||| UInt8.ofNat (offset >>> 8)).toNat =
        32 + 0 * 8 + offset >>> 8 := toNat_controlByte .pointer ⟨offset >>> 8, by omega⟩
    simp only [h1, if_true, and_seven, and_byte, Nat.mod_eq_of_lt hv]
    rw [readHeader_pointerByte (k := 0) (v := offset >>> 8) hc (by decide) hv rfl]
    simp only [if_true, Bytes.beNat_cons, UInt8.toNat_ofNat', Nat.shiftRight_eq_div_pow,
      Bytes.beNat_nil, List.length_nil, Option.some.injEq, Prod.mk.injEq, and_true,
      Mmdb.Header.pointer.injEq]
    omega
  by_cases h2 : offset < 526336
  · obtain ⟨m, rfl⟩ : ∃ m, offset = m + 2048 := ⟨offset - 2048, by omega⟩
    have hv : m >>> 16 < 8 := by
      rw [Nat.shiftRight_eq_div_pow]
      omega
    have hc : ((TypeTag.pointer.code <<< 5) ||| ((1 : UInt8) <<< 3) |||
        UInt8.ofNat (m >>> 16)).toNat = 32 + 1 * 8 + m >>> 16 := toNat_pointerByte 1 ⟨m >>> 16, hv⟩
    simp only [h1, h2, if_true, if_false, Nat.add_sub_cancel, and_seven, and_byte,
      Nat.mod_eq_of_lt hv]
    rw [readHeader_pointerByte (k := 1) (v := m >>> 16) hc (by decide) hv rfl,
      if_neg (by decide), if_pos rfl]
    simp only [Bytes.beNat_cons, UInt8.toNat_ofNat', Nat.shiftRight_eq_div_pow,
      Bytes.beNat_nil, List.length_nil, List.length_cons, Option.some.injEq, Prod.mk.injEq, and_true,
      Mmdb.Header.pointer.injEq]
    omega
  by_cases h3 : offset < 134744064
  · obtain ⟨m, rfl⟩ : ∃ m, offset = m + 526336 := ⟨offset - 526336, by omega⟩
    have hv : m >>> 24 < 8 := by
      rw [Nat.shiftRight_eq_div_pow]
      omega
    have hc : ((TypeTag.pointer.code <<< 5) ||| ((2 : UInt8) <<< 3) |||
        UInt8.ofNat (m >>> 24)).toNat = 32 + 2 * 8 + m >>> 24 := toNat_pointerByte 2 ⟨m >>> 24, hv⟩
    simp only [h1, h2, h3, if_true, if_false, Nat.add_sub_cancel, and_seven, and_byte,
      Nat.mod_eq_of_lt hv]
    rw [readHeader_pointerByte (k := 2) (v := m >>> 24) hc (by decide) hv rfl,
      if_neg (by decide), if_neg (by decide), if_pos rfl]
    simp only [Bytes.beNat_cons, UInt8.toNat_ofNat', Nat.shiftRight_eq_div_pow,
      Bytes.beNat_nil, List.length_nil, List.length_cons, Option.some.injEq, Prod.mk.injEq, and_true,
      Mmdb.Header.pointer.injEq]
    omega
  · have hc : ((TypeTag.pointer.code <<< 5) ||| ((3 : UInt8) <<< 3)).toNat = 32 + 3 * 8 + 0 := by
      decide
    simp only [h1, h2, h3, if_false]
    rw [readHeader_pointerByte (k := 3) (v := 0) hc (by decide) (by decide) (length_beBytes 4 offset),
      beNat_beBytes, Nat.mod_eq_of_lt (by omega)]
    rfl

/-- A header that reads as a pointer is a control byte and the bytes of its size class. -/
theorem readHeader_eq_pointer {b rest : List UInt8} {target : ℕ}
    (h : Mmdb.readHeader b = some (.pointer target, rest)) :
    ∃ (c : UInt8) (more : List UInt8), b = c :: more ++ rest ∧
      more.length = c.toNat / 8 % 4 + 1 ∧
      Mmdb.readPointer c.toNat (more ++ rest) = some (.pointer target, rest) := by
  have hsize : ∀ (type size : ℕ) (b : List UInt8),
      Mmdb.readSize type size b ≠ some (.pointer target, rest) := by
    intro type size b hb
    unfold Mmdb.readSize at hb
    by_cases hs : size < 29
    · simp [hs] at hb
    · cases hext : readBe (size - 28) b <;> simp [hs, hext] at hb
  rcases b with _ | ⟨c, b⟩
  · simp [Mmdb.readHeader] at h
  · unfold Mmdb.readHeader at h
    by_cases h1 : c.toNat / 32 = 1
    · simp only [h1, if_true] at h
      cases hread : readChunk (c.toNat / 8 % 4 + 1) b with
      | none => simp [Mmdb.readPointer, readBe, hread] at h
      | some chunk =>
        obtain ⟨more, tail⟩ := chunk
        obtain ⟨rfl, hlen⟩ := Bytes.readChunk_eq_some hread
        have htail : tail = rest := by
          simp only [Mmdb.readPointer, readBe, hread, Option.map_some, Option.bind_eq_bind,
            Option.bind_some, Option.some.injEq, Prod.mk.injEq] at h
          exact h.2
        subst htail
        exact ⟨c, more, rfl, hlen, h⟩
    · simp only [h1, if_false] at h
      by_cases h0 : c.toNat / 32 = 0
      · simp only [h0, if_true] at h
        rcases b with _ | ⟨t, b⟩
        · simp at h
        · exact absurd h (hsize _ _ _)
      · simp only [h0, if_false] at h
        exact absurd h (hsize _ _ _)

/-- A size class holds the offsets below the next class's, the last class all of a `u32`. -/
theorem pointerBytes_le {c : ℕ} {more rest : List UInt8} {target : ℕ}
    (hlen : more.length = c / 8 % 4 + 1)
    (h : Mmdb.readPointer c (more ++ rest) = some (.pointer target, rest)) :
    pointerBytes target ≤ 1 + more.length := by
  have hlt := Bytes.beNat_lt more
  have hread := Bytes.readBe_append more rest
  rw [hlen] at hlt hread ⊢
  unfold Mmdb.readPointer at h
  simp only [hread, Option.bind_eq_bind, Option.bind_some, Option.some.injEq, Prod.mk.injEq, and_true,
    Mmdb.Header.pointer.injEq] at h
  have hhigh : c % 8 < 8 := Nat.mod_lt _ (by decide)
  have hclass : c / 8 % 4 < 4 := Nat.mod_lt _ (by decide)
  generalize c / 8 % 4 = k at h hlt hclass
  generalize c % 8 = high at h hhigh
  unfold pointerBytes
  interval_cases k <;> simp at h <;> norm_num at hlt <;> split_ifs <;> omega

/-- The writer's two tables of pointer sizes agree with each other and with the reader: a pointer is as
long as `pointer_bytes` says, its control bits name its class, it reads as its offset whatever follows,
and nothing shorter does. -/
theorem DataSection.pointer_classes (d : DataSection) (offset : BitVec 32) :
    ∃ written : List UInt8,
      (d.append (pointerEncoding offset.toNat)).bytes = d.bytes ++ written ∧
      written.length = pointerBytes offset.toNat ∧
      (∃ c more, written = c :: more ∧ c.toNat / 8 % 4 + 2 = pointerBytes offset.toNat) ∧
      (∀ rest, Mmdb.readHeader (written ++ rest) = some (.pointer offset.toNat, rest)) ∧
      ∀ b rest, Mmdb.readHeader b = some (.pointer offset.toNat, rest) →
        pointerBytes offset.toNat + rest.length ≤ b.length := by
  have hlen := length_pointerEncoding offset.toNat
  have hread := fun rest => readHeader_pointer offset.isLt rest
  refine ⟨pointerEncoding offset.toNat, rfl, hlen, ?_, hread, fun b rest hb => ?_⟩
  · obtain ⟨c, more, hc, hmore, -⟩ := readHeader_eq_pointer (hread [])
    rw [List.append_nil, List.append_nil] at hc
    rw [hc, List.length_cons, hmore] at hlen
    exact ⟨c, more, hc, hlen⟩
  · obtain ⟨c, more, rfl, hmore, hp⟩ := readHeader_eq_pointer hb
    have := pointerBytes_le hmore hp
    rw [List.length_append, List.length_cons]
    omega

end Pointer

end MmdbWriter
