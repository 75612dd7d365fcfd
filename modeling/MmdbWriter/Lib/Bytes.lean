import Mathlib

/-!
# Big-endian numbers

`readBe k` reads a number of `k` bytes from the front of a byte string. Numbers written one after the
other are read back one after the other.
-/

namespace Bytes

/-- The number the bytes spell, the most significant first. -/
def beNat (b : List UInt8) : ℕ := b.foldl (fun n c => n * 256 + c.toNat) 0

/-- The first `k` bytes and the bytes after them. -/
def readChunk (k : ℕ) (b : List UInt8) : Option (List UInt8 × List UInt8) :=
  if k ≤ b.length then some (b.take k, b.drop k) else none

/-- The number in the first `k` bytes and the bytes after them. -/
def readBe (k : ℕ) (b : List UInt8) : Option (ℕ × List UInt8) :=
  (readChunk k b).map fun c => (beNat c.1, c.2)

@[simp] theorem beNat_nil : beNat [] = 0 := rfl

theorem foldl_beNat (b : List UInt8) (n : ℕ) :
    b.foldl (fun n c => n * 256 + c.toNat) n = n * 256 ^ b.length + beNat b := by
  induction b generalizing n with
  | nil => simp
  | cons c b ih =>
    unfold beNat
    rw [List.foldl_cons, List.foldl_cons, ih, ih, List.length_cons, pow_succ]
    ring

theorem beNat_append (a b : List UInt8) :
    beNat (a ++ b) = beNat a * 256 ^ b.length + beNat b := by
  rw [beNat, List.foldl_append, foldl_beNat]
  rfl

theorem beNat_cons (c : UInt8) (b : List UInt8) :
    beNat (c :: b) = c.toNat * 256 ^ b.length + beNat b := by
  have := beNat_append [c] b
  simpa [beNat] using this

theorem beNat_lt (b : List UInt8) : beNat b < 256 ^ b.length := by
  induction b with
  | nil => simp
  | cons c b ih =>
    have hc : c.toNat < 256 := c.toNat_lt
    rw [beNat_cons, List.length_cons, pow_succ]
    nlinarith [Nat.zero_le (beNat b)]

theorem beNat_dropWhile (b : List UInt8) : beNat (b.dropWhile (· == 0)) = beNat b := by
  induction b with
  | nil => rfl
  | cons c b ih =>
    rw [List.dropWhile_cons]
    split_ifs with hc
    · have : c = 0 := by simpa using hc
      rw [ih, beNat_cons, this]
      simp
    · rfl

theorem readChunk_append (c rest : List UInt8) :
    readChunk c.length (c ++ rest) = some (c, rest) := by
  unfold readChunk
  rw [if_pos (by simp), List.take_left, List.drop_left]

theorem readBe_append (c rest : List UInt8) : readBe c.length (c ++ rest) = some (beNat c, rest) := by
  unfold readBe
  rw [readChunk_append]
  rfl

theorem readChunk_eq_some {k : ℕ} {b c rest : List UInt8} (h : readChunk k b = some (c, rest)) :
    b = c ++ rest ∧ c.length = k := by
  unfold readChunk at h
  split_ifs at h with hk
  simp only [Option.some.injEq, Prod.mk.injEq] at h
  rw [← h.1, ← h.2, List.take_append_drop, List.length_take]
  exact ⟨rfl, by omega⟩

theorem readBe_lt {k n : ℕ} {b rest : List UInt8} (h : readBe k b = some (n, rest)) :
    n < 256 ^ k := by
  unfold readBe at h
  obtain ⟨c, hc, heq⟩ := Option.map_eq_some_iff.mp h
  rw [Prod.mk.injEq] at heq
  obtain ⟨-, hlen⟩ := readChunk_eq_some hc
  rw [← heq.1, ← hlen]
  exact beNat_lt c.1

end Bytes
