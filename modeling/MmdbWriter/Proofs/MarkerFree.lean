import MmdbWriter.Proofs.Section
import MmdbWriter.Writer

/-!
# Bytes without the marker

Text keeps the marker away: put before bytes in which no marker starts, it neither holds a marker nor
begins one that they end. The marker has a UTF-8 lead byte that no continuation byte follows, so the
bytes of a string are text. So are headers and pointers of a short section, whose first byte is none of
the marker's first three.
-/

namespace MmdbWriter

open Writer (metadataMarker)

/-- The marker starts nowhere in the bytes. -/
def Clean (r : List UInt8) : Prop := ∀ i, ¬ metadataMarker <+: r.drop i

/-- The bytes do not complete a marker of which the first byte, or the first two, stand before
them. -/
def Quiet (r : List UInt8) : Prop := ¬ metadataMarker.drop 1 <+: r ∧ ¬ metadataMarker.drop 2 <+: r

/-- The bytes keep those after them quiet and clean. -/
def Text (x : List UInt8) : Prop := ∀ r, Quiet r → Clean r → Quiet (x ++ r) ∧ Clean (x ++ r)

section Bytes

theorem clean_nil : Clean [] := by
  intro i h
  have := h.length_le
  simp [metadataMarker] at this

theorem quiet_nil : Quiet [] := by
  constructor <;> intro h <;> have := h.length_le <;> simp [metadataMarker] at this

theorem clean_cons {b : UInt8} {r : List UInt8} (h : ¬ metadataMarker <+: b :: r) (hr : Clean r) :
    Clean (b :: r)
  | 0 => h
  | i + 1 => hr i

theorem not_marker_cons {b : UInt8} {r : List UInt8} (h : b = 0xab → ¬ metadataMarker.drop 1 <+: r) :
    ¬ metadataMarker <+: b :: r := by
  intro hm
  obtain ⟨hb, hr⟩ := List.cons_prefix_cons.mp hm
  exact h hb.symm hr

theorem quiet_cons {b : UInt8} {r : List UInt8} (hb : b ≠ 0xef)
    (hr : b = 0xcd → ¬ metadataMarker.drop 2 <+: r) : Quiet (b :: r) := by
  constructor
  · intro hm
    obtain ⟨hcd, hm⟩ := List.cons_prefix_cons.mp hm
    exact hr hcd.symm hm
  · intro hm
    exact hb (List.cons_prefix_cons.mp hm).1.symm

end Bytes

section Text

theorem text_nil : Text [] := fun _ hq hc => ⟨hq, hc⟩

theorem Text.append {x y : List UInt8} (hx : Text x) (hy : Text y) : Text (x ++ y) := by
  intro r hq hc
  obtain ⟨hq, hc⟩ := hy r hq hc
  rw [List.append_assoc]
  exact hx _ hq hc

theorem text_byte {b : UInt8} (hb : b ≠ 0xef) : Text [b] := by
  intro r hq hc
  exact ⟨quiet_cons hb fun _ => hq.2, clean_cons (not_marker_cons fun _ => hq.1) hc⟩

theorem text_of_not_mem {x : List UInt8} (h : 0xef ∉ x) : Text x := by
  induction x with
  | nil => exact text_nil
  | cons b x ih =>
    rw [List.mem_cons, not_or] at h
    exact (text_byte (Ne.symm h.1)).append (ih h.2)

/-- The marker's third byte is harmless before text that does not go on with its fourth. -/
theorem text_lead {b : UInt8} {x : List UInt8} (hb : b ≠ 0x4d) (hx : Text (b :: x)) :
    Text (0xef :: b :: x) := by
  intro r hq hc
  obtain ⟨-, hc⟩ := hx r hq hc
  have hne : ¬ metadataMarker.drop 2 <+: 0xef :: b :: (x ++ r) := by
    intro hm
    exact hb (List.cons_prefix_cons.mp (List.cons_prefix_cons.mp hm).2).1.symm
  refine ⟨⟨fun hm => ?_, hne⟩, clean_cons (not_marker_cons fun h => by cases h) hc⟩
  cases (List.cons_prefix_cons.mp hm).1

/-- Up to two bytes behind one that is none of the marker's first three. -/
theorem text_cons {c : UInt8} (h₁ : c ≠ 0xab) (h₂ : c ≠ 0xcd) (h₃ : c ≠ 0xef) {x : List UInt8}
    (hx : x.length ≤ 2) : Text (c :: x) := by
  intro r hq hc
  refine ⟨quiet_cons h₃ fun h => absurd h h₂, clean_cons (not_marker_cons fun h => absurd h h₁) ?_⟩
  match x, hx with
  | [], _ => exact hc
  | [a], _ => exact clean_cons (not_marker_cons fun _ => hq.1) hc
  | [a, b], _ =>
    refine clean_cons (not_marker_cons fun _ hm => ?_) (clean_cons (not_marker_cons fun _ => hq.1) hc)
    exact hq.2 (List.cons_prefix_cons.mp hm).2

theorem text_payload {k p : List UInt8} (hk : Text k) (hp : p.length ≤ 11)
    (h : ∀ i < 14, ∀ r, ¬ metadataMarker.drop i <+: k ++ r) : Text (p ++ k) := by
  intro r hq hc
  have hafter : ∀ (j : ℕ) (q : List UInt8), j + q.length < 14 →
      ¬ metadataMarker.drop j <+: q ++ (k ++ r) := by
    intro j q hj hm
    obtain ⟨z, hz⟩ := hm
    refine h (j + q.length) hj r ⟨z, ?_⟩
    have := congrArg (List.drop q.length) hz
    rwa [List.drop_left, List.drop_append_of_le_length (by simp [metadataMarker]; omega),
      List.drop_drop] at this
  obtain ⟨-, hc⟩ := hk r hq hc
  rw [List.append_assoc]
  refine ⟨⟨hafter 1 p (by omega), hafter 2 p (by omega)⟩, fun i hm => ?_⟩
  by_cases hi : i ≤ p.length
  · rw [List.drop_append_of_le_length hi] at hm
    exact hafter 0 (p.drop i) (by rw [List.length_drop]; omega) hm
  · rw [List.drop_append, List.drop_eq_nil_of_le (by omega), List.nil_append] at hm
    exact hc _ hm

end Text

section Strings

theorem text_utf8EncodeChar (c : Char) : Text (String.utf8EncodeChar c) := by
  have hne : ∀ n : ℕ, n < 256 → n ≠ 0xef → UInt8.ofNat n ≠ 0xef := by
    intro n hn h he
    have := congrArg UInt8.toNat he
    rw [UInt8.toNat_ofNat', Nat.mod_eq_of_lt hn] at this
    exact h this
  have tail : ∀ n : ℕ, Text [UInt8.ofNat (n % 64 + 128)] := fun n =>
    text_byte (hne _ (by omega) (by omega))
  unfold String.utf8EncodeChar
  dsimp only
  split_ifs with h₁ h₂ h₃
  · exact text_byte (hne _ (by omega) (by omega))
  · exact (text_byte (hne _ (by omega) (by omega))).append (tail _)
  · have htails := (tail (c.val.toNat / 64)).append (tail c.val.toNat)
    by_cases hlead : UInt8.ofNat (c.val.toNat / 4096 % 16 + 224) = 0xef
    · rw [hlead]
      refine text_lead (fun he => ?_) htails
      have := congrArg UInt8.toNat he
      rw [UInt8.toNat_ofNat', Nat.mod_eq_of_lt (by omega)] at this
      have h4d : UInt8.toNat 0x4d = 77 := rfl
      omega
    · exact (text_byte hlead).append htails
  · exact (text_byte (hne _ (by omega) (by omega))).append
      ((tail (c.val.toNat / 4096)).append ((tail (c.val.toNat / 64)).append (tail c.val.toNat)))

theorem strBytes_eq (s : String) : strBytes s = s.toList.flatMap String.utf8EncodeChar := by
  unfold strBytes
  rw [← String.utf8Encode_toList, List.utf8Encode]
  simp

theorem text_strBytes (s : String) : Text (strBytes s) := by
  rw [strBytes_eq]
  induction s.toList with
  | nil => exact text_nil
  | cons c l ih =>
    rw [List.flatMap_cons]
    exact (text_utf8EncodeChar c).append ih

end Strings

section Headers

/-- A control byte that is none of the marker's first three, with the bytes of a size below 128
KiB. -/
theorem text_controlByte {tag : TypeTag} {size : ℕ} (hsize : size ≤ 131072)
    (h : tag = .utf8 ∨ tag = .extended ∨ tag = .map ∧ size ≠ 15) : Text (controlByte tag size) := by
  obtain ⟨c, hc, heq⟩ := controlByte_eq tag (show size < sizeLimit by unfold sizeLimit; omega)
  have hs := sizeField_lt size
  have hab : UInt8.toNat 0xab = 171 := rfl
  have hcd : UInt8.toNat 0xcd = 205 := rfl
  have hef : UInt8.toNat 0xef = 239 := rfl
  have hcode : tag.code.toNat = 2 ∨ tag.code.toNat = 0 ∨ tag.code.toNat = 7 ∧ size ≠ 15 := by
    rcases h with rfl | rfl | ⟨rfl, h⟩
    · exact Or.inl rfl
    · exact Or.inr (Or.inl rfl)
    · exact Or.inr (Or.inr ⟨rfl, h⟩)
  have hfield : sizeField size = 15 → size = 15 := by
    unfold sizeField
    split_ifs <;> omega
  have h₁ : c ≠ 0xab := fun h => by rw [h] at hc; omega
  have h₂ : c ≠ 0xcd := fun h => by rw [h] at hc; omega
  have h₃ : c ≠ 0xef := fun h => by rw [h] at hc; omega
  rw [heq]
  unfold sizeBytes
  split_ifs
  · exact text_cons h₁ h₂ h₃ (by simp)
  · exact text_cons h₁ h₂ h₃ (by simp)
  · exact text_cons h₁ h₂ h₃ (by simp)
  · have htop : (size - 65821) >>> (8 * 2) = 0 := by
      rw [Nat.shiftRight_eq_div_pow]
      omega
    rw [beBytes_succ, htop]
    exact (text_byte h₃).append (text_cons (by decide) (by decide) (by decide) (by simp))

theorem text_blob {s : String} (h : (strBytes s).length ≤ 131072) :
    Text (blob .utf8 (strBytes s)) :=
  (text_controlByte h (Or.inl rfl)).append (text_strBytes s)

theorem text_extendedHeader {ext : ExtendedType} {size : ℕ} (h : size ≤ 131072) :
    Text (extendedHeader ext size) := by
  refine (text_controlByte h (Or.inr (Or.inl rfl))).append (text_byte ?_)
  cases ext <;> decide

/-- The first byte of a pointer below 128 KiB, and the one or two after it. -/
theorem pointerEncoding_eq {offset : ℕ} (h : offset < 131072) : ∃ c x, 32 ≤ c.toNat ∧
    c.toNat ≤ 41 ∧ pointerEncoding offset = c :: x ∧ 1 ≤ x.length ∧ x.length ≤ 2 ∧
    (offset < 2048 → x.length = 1) := by
  unfold pointerEncoding
  by_cases h₁ : offset < 2048
  · have hc := toNat_controlByte .pointer ⟨offset >>> 8 % 8, by omega⟩
    simp only [h₁, if_true, and_seven]
    refine ⟨_, _, ?_, ?_, rfl, by simp, by simp, fun _ => rfl⟩ <;>
      · rw [hc, show TypeTag.pointer.code.toNat = 1 from rfl]
        dsimp only
        omega
  · have h₂ : offset < 526336 := by omega
    have hv : (offset - 2048) >>> 16 < 2 := by
      rw [Nat.shiftRight_eq_div_pow]
      omega
    have hc := toNat_pointerByte 1 ⟨(offset - 2048) >>> 16, by omega⟩
    simp only [h₁, h₂, if_true, if_false, and_seven, Nat.mod_eq_of_lt (show
      (offset - 2048) >>> 16 < 8 by omega)]
    refine ⟨_, _, ?_, ?_, rfl, by simp, by simp, fun h => h.elim⟩ <;>
      · refine hc.symm ▸ ?_
        norm_num
        omega

theorem text_pointer {offset : ℕ} (h : offset < 131072) : Text (pointerEncoding offset) := by
  obtain ⟨c, x, hlo, hhi, heq, -, hx, -⟩ := pointerEncoding_eq h
  rw [heq]
  have hne : ∀ b : UInt8, 41 < b.toNat → c ≠ b := fun b hb h => by rw [h] at hhi; omega
  exact text_cons (hne _ (by decide)) (hne _ (by decide)) (hne _ (by decide)) hx

/-- A byte that is not the marker's goes on no part of it. -/
theorem not_prefix_cons {c : UInt8} (h : c ∉ metadataMarker) (y : List UInt8) {i : ℕ} (hi : i < 14) :
    ¬ metadataMarker.drop i <+: c :: y := by
  intro hm
  have hi' : i < metadataMarker.length := hi
  rw [List.drop_eq_getElem_cons hi'] at hm
  exact h ((List.cons_prefix_cons.mp hm).1 ▸ List.getElem_mem hi')

theorem not_prefix_pointer {offset : ℕ} (h : offset < 131072) (i : ℕ) (hi : i < 14)
    (r : List UInt8) : ¬ metadataMarker.drop i <+: pointerEncoding offset ++ r := by
  obtain ⟨c, x, hlo, hhi, heq, -⟩ := pointerEncoding_eq h
  have hout : ∀ b ∈ metadataMarker, b.toNat < 32 ∨ 41 < b.toNat := by decide +kernel
  rw [heq]
  refine not_prefix_cons (fun hc => ?_) _ hi
  have := hout c hc
  omega

end Headers

end MmdbWriter
