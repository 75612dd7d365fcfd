import MmdbWriter.Proofs.Refinement

/-!
# The networks of a range

`range_to_cidrs` cuts a range into aligned blocks that tile it. On the way to the first block of a
partial range from `::` it shifts by the full width of a `u128`, for which the shortcut for the whole
space does not account.
-/

namespace MmdbWriter

section Tiles

/-- The blocks tile the numbers from `lo` to below `hi`, each at a multiple of its length. -/
def Tiles (totalBits : ℕ) : ℕ → List (ℕ × ℕ) → ℕ → Prop
  | lo, [], hi => lo = hi
  | lo, (base, len) :: cidrs, hi => base = lo ∧ len ≤ totalBits ∧ 2 ^ (totalBits - len) ∣ base ∧
      Tiles totalBits (lo + 2 ^ (totalBits - len)) cidrs hi

theorem Tiles.le {totalBits : ℕ} : ∀ (cidrs : List (ℕ × ℕ)) {lo hi : ℕ},
    Tiles totalBits lo cidrs hi → lo ≤ hi
  | [], _, _, h => Nat.le_of_eq h
  | _ :: cidrs, _, _, h => (Nat.le_add_right _ _).trans (Tiles.le cidrs h.2.2.2)

theorem trailingZeros_dvd : ∀ width n : ℕ, 2 ^ trailingZeros width n ∣ n
  | 0, n => by simp [trailingZeros]
  | width + 1, n => by
    unfold trailingZeros
    split_ifs with h
    · simp
    · have ih := trailingZeros_dvd width (n / 2)
      have h2 : n = 2 * (n / 2) := by omega
      rw [pow_succ', h2]
      simpa using Nat.mul_dvd_mul_left 2 ih

theorem trailingZeros_lt : ∀ (width n : ℕ), n ≠ 0 → n < 2 ^ width → trailingZeros width n < width
  | 0, n, h, hn => by
    simp at hn
    omega
  | width + 1, n, h, hn => by
    unfold trailingZeros
    split_ifs with hodd
    · omega
    · rw [pow_succ] at hn
      have := trailingZeros_lt width (n / 2) (by omega) (by omega)
      omega

theorem shrinkBlock_spec {start stop : ℕ} (h : start ≤ stop) : ∀ (size : ℕ), size < 128 →
    start + 2 ^ size ≤ 2 ^ 128 →
    ∃ k ≤ size, shrinkBlock start stop size = .ok k ∧ start + 2 ^ k ≤ stop + 1
  | 0, _, _ => ⟨0, le_rfl, rfl, by omega⟩
  | size + 1, hs, hfit => by
    have hpos : 0 < 2 ^ (size + 1) := Nat.two_pow_pos _
    have hadd : add128 start (2 ^ (size + 1) - 1) = .ok (start + (2 ^ (size + 1) - 1)) := by
      unfold add128
      rw [if_pos (by omega)]
    have hshl : shl128 (size + 1) = .ok (2 ^ (size + 1)) := by
      unfold shl128
      rw [if_pos hs]
    unfold shrinkBlock
    simp only [hshl, hadd, bind, Except.bind]
    split_ifs with hle
    · exact ⟨size + 1, le_rfl, rfl, by omega⟩
    · have hpow : 2 ^ size ≤ 2 ^ (size + 1) := Nat.pow_le_pow_right (by decide) (by omega)
      obtain ⟨k, hk, hrun, hend⟩ := shrinkBlock_spec h size (by omega) (by omega)
      exact ⟨k, by omega, hrun, hend⟩

theorem add_pow_le {a k n : ℕ} (hd : 2 ^ k ∣ a) (hk : k ≤ n) (ha : a < 2 ^ n) :
    a + 2 ^ k ≤ 2 ^ n := by
  obtain ⟨c, rfl⟩ := hd
  obtain ⟨m, rfl⟩ := Nat.exists_eq_add_of_le hk
  rw [pow_add] at ha ⊢
  have hc : c < 2 ^ m := Nat.lt_of_mul_lt_mul_left ha
  calc 2 ^ k * c + 2 ^ k = 2 ^ k * (c + 1) := by ring
    _ ≤ 2 ^ k * 2 ^ m := Nat.mul_le_mul_left _ hc

variable {totalBits stop : ℕ}

/-- The block at the start of a range is aligned and lies within the range. -/
theorem blockSize_spec {start : ℕ} (hT : totalBits ≤ 128) (hle : start ≤ stop)
    (hstop : stop < 2 ^ totalBits) (h0 : start = 0 → totalBits < 128) :
    ∃ k, k ≤ totalBits ∧ k < 128 ∧ blockSize start stop totalBits = .ok k ∧ 2 ^ k ∣ start ∧
      start + 2 ^ k ≤ stop + 1 := by
  have hpow : 2 ^ totalBits ≤ 2 ^ 128 := Nat.pow_le_pow_right (by decide) hT
  unfold blockSize
  by_cases hs : start = 0
  · subst hs
    obtain ⟨k, hk, hrun, hend⟩ := shrinkBlock_spec hle totalBits (h0 rfl) (by omega)
    exact ⟨k, hk, by have := h0 rfl; omega, by rw [if_pos rfl, hrun], Nat.dvd_zero _, hend⟩
  · rw [if_neg hs]
    have htz := trailingZeros_lt 128 start hs (by omega)
    have hd : 2 ^ min (trailingZeros 128 start) totalBits ∣ start :=
      (Nat.pow_dvd_pow 2 (min_le_left _ _)).trans (trailingZeros_dvd 128 start)
    have hfit := add_pow_le hd (min_le_right _ _) (by omega)
    obtain ⟨k, hk, hrun, hend⟩ := shrinkBlock_spec hle
      (min (trailingZeros 128 start) totalBits) (by omega) (by omega)
    exact ⟨k, by omega, by omega, hrun, (Nat.pow_dvd_pow 2 hk).trans hd, hend⟩

/-- The outer loop tiles the range. -/
theorem rangeLoop_tiles (hT : totalBits ≤ 128) (hstop : stop < 2 ^ totalBits) (start : ℕ)
    (hle : start ≤ stop) (h0 : start = 0 → totalBits < 128) :
    ∃ cidrs, rangeLoop start stop totalBits = .ok cidrs ∧
      Tiles totalBits start cidrs (stop + 1) := by
  obtain ⟨k, hk, hk128, hblock, hd, hend⟩ := blockSize_spec hT hle hstop h0
  have hpos : 0 < 2 ^ k := Nat.two_pow_pos k
  have hsub : totalBits - (totalBits - k) = k := by omega
  have hshl : shl128 k = .ok (2 ^ k) := by
    unfold shl128
    rw [if_pos hk128]
  have htile : ∀ {cidrs : List (ℕ × ℕ)}, Tiles totalBits (start + 2 ^ k) cidrs (stop + 1) →
      Tiles totalBits start ((start, totalBits - k) :: cidrs) (stop + 1) := by
    intro cidrs h
    refine ⟨rfl, Nat.sub_le _ _, ?_, ?_⟩
    · rwa [hsub]
    · rwa [hsub]
  unfold rangeLoop
  rw [hblock]
  simp only []
  split
  · rename_i e herr
    rw [hshl] at herr
    cases herr
  · rename_i block hb
    rw [hshl, Except.ok.injEq] at hb
    subst hb
    split
    · rename_i next hn
      unfold checkedAdd128 at hn
      split_ifs at hn
      rw [Option.some.injEq] at hn
      subst hn
      split_ifs with hnext
      · obtain ⟨cidrs, hrun, ht⟩ := rangeLoop_tiles hT hstop (start + 2 ^ k) hnext
          (fun h => by omega)
        rw [hrun]
        exact ⟨_, rfl, htile ht⟩
      · exact ⟨_, rfl, htile (show start + 2 ^ k = stop + 1 by omega)⟩
    · rename_i hn
      unfold checkedAdd128 at hn
      split_ifs at hn with hlt
      have hpow : 2 ^ totalBits ≤ 2 ^ 128 := Nat.pow_le_pow_right (by decide) hT
      exact ⟨_, rfl, htile (show start + 2 ^ k = stop + 1 by omega)⟩
termination_by stop - start

theorem maxForBits_eq (hT : totalBits ≤ 128) : maxForBits totalBits = 2 ^ totalBits - 1 := by
  unfold maxForBits
  split_ifs with h
  · rw [show totalBits = 128 by omega]
  · rfl

/-- `range_to_cidrs` tiles the range, or shifts by the full width on a partial range from `::`. -/
theorem rangeToCidrs_cases {start : ℕ} (hT : totalBits ≤ 128) (hle : start ≤ stop)
    (hstop : stop < 2 ^ totalBits) :
    (∃ cidrs, rangeToCidrs start stop totalBits = .ok cidrs ∧
      Tiles totalBits start cidrs (stop + 1) ∧
      ¬ (totalBits = 128 ∧ start = 0 ∧ stop ≠ 2 ^ totalBits - 1)) ∨
    (rangeToCidrs start stop totalBits = .error .panic ∧
      totalBits = 128 ∧ start = 0 ∧ stop ≠ 2 ^ totalBits - 1) := by
  unfold rangeToCidrs
  rw [maxForBits_eq hT]
  by_cases hall : start = 0 ∧ stop = 2 ^ totalBits - 1
  · rw [if_pos hall]
    have hpos : 0 < 2 ^ totalBits := Nat.two_pow_pos _
    refine Or.inl ⟨_, rfl, ⟨hall.1.symm, Nat.zero_le _, Nat.dvd_zero _, ?_⟩, fun h => h.2.2 hall.2⟩
    simp only [Tiles, Nat.sub_zero]
    omega
  · rw [if_neg hall]
    by_cases hbug : totalBits = 128 ∧ start = 0
    · obtain ⟨rfl, rfl⟩ := hbug
      refine Or.inr ⟨?_, rfl, rfl, fun h => hall ⟨rfl, h⟩⟩
      have hblock : blockSize 0 stop 128 = .error .panic := rfl
      unfold rangeLoop
      rw [hblock]
    · obtain ⟨cidrs, hrun, ht⟩ := rangeLoop_tiles hT hstop start hle (fun h => by
        by_contra hlt
        exact hbug ⟨by omega, h⟩)
      exact Or.inl ⟨cidrs, hrun, ht, fun h => hbug ⟨h.1, h.2.1⟩⟩

end Tiles

section Nets

variable {w : ℕ}

namespace Net

theorem mem_iff_toNat {n : Net w} (hd : 2 ^ (w - n.prefixLen) ∣ n.addr.toNat) (x : BitVec w) :
    n.Mem x ↔ n.addr.toNat ≤ x.toNat ∧ x.toNat < n.addr.toNat + 2 ^ (w - n.prefixLen) := by
  unfold Mem
  rw [BitVec.toNat_eq, BitVec.toNat_ushiftRight, BitVec.toNat_ushiftRight,
    Nat.shiftRight_eq_div_pow, Nat.shiftRight_eq_div_pow]
  obtain ⟨c, hc⟩ := hd
  have hpos : 0 < 2 ^ (w - n.prefixLen) := Nat.two_pow_pos _
  rw [hc, Nat.mul_div_cancel_left _ hpos, Nat.div_eq_iff hpos, Nat.mul_comm]
  omega

theorem masked_eq {n : Net w} (hd : 2 ^ (w - n.prefixLen) ∣ n.addr.toNat) : n.masked = n := by
  have haddr : (n.addr >>> (w - n.prefixLen)) <<< (w - n.prefixLen) = n.addr := by
    apply BitVec.eq_of_toNat_eq
    rw [BitVec.toNat_shiftLeft, BitVec.toNat_ushiftRight, Nat.shiftRight_eq_div_pow,
      Nat.shiftLeft_eq, Nat.div_mul_cancel hd, Nat.mod_eq_of_lt n.addr.isLt]
  unfold masked
  rw [haddr]

end Net

/-- The networks tile the numbers from `lo` to below `hi`. -/
def NetTiles : ℕ → List (Net w) → ℕ → Prop
  | lo, [], hi => lo = hi
  | lo, n :: nets, hi => n.addr.toNat = lo ∧ 2 ^ (w - n.prefixLen) ∣ lo ∧
      NetTiles (lo + 2 ^ (w - n.prefixLen)) nets hi

theorem NetTiles.le : ∀ (nets : List (Net w)) {lo hi : ℕ}, NetTiles lo nets hi → lo ≤ hi
  | [], _, _, h => Nat.le_of_eq h
  | _ :: nets, _, _, h => (Nat.le_add_right _ _).trans (NetTiles.le nets h.2.2)

theorem cidrsToNets_tiles : ∀ (cidrs : List (ℕ × ℕ)) {lo hi : ℕ}, Tiles w lo cidrs hi →
    hi ≤ 2 ^ w → ∃ nets : List (Net w), cidrsToNets cidrs = .ok nets ∧ NetTiles lo nets hi
  | [], lo, hi, h, _ => ⟨[], rfl, h⟩
  | (base, len) :: cidrs, lo, hi, h, hhi => by
    obtain ⟨rfl, hlen, hd, ht⟩ := h
    obtain ⟨nets, hrun, hnets⟩ := cidrsToNets_tiles cidrs ht hhi
    have hpos : 0 < 2 ^ (w - len) := Nat.two_pow_pos _
    have hle := Tiles.le cidrs ht
    have haddr : (BitVec.ofNat w base).toNat = base := by
      rw [BitVec.toNat_ofNat, Nat.mod_eq_of_lt (by omega)]
    have hnew : Net.new (BitVec.ofNat w base) len = some ⟨BitVec.ofNat w base, len, hlen⟩ := by
      unfold Net.new
      rw [dif_pos hlen]
    refine ⟨⟨BitVec.ofNat w base, len, hlen⟩ :: nets, ?_, haddr, hd, hnets⟩
    unfold cidrsToNets at hrun ⊢
    rw [List.mapM_cons, hnew, hrun]
    rfl

theorem NetTiles.mem_iff : ∀ (nets : List (Net w)) {lo hi : ℕ}, NetTiles lo nets hi →
    ∀ x : BitVec w, (∃ n ∈ nets, n.Mem x) ↔ lo ≤ x.toNat ∧ x.toNat < hi
  | [], lo, hi, h, x => by
    have : lo = hi := h
    simp only [List.not_mem_nil, false_and, exists_false, false_iff]
    omega
  | n :: nets, lo, hi, h, x => by
    obtain ⟨rfl, hd, ht⟩ := h
    have ih := NetTiles.mem_iff nets ht x
    have hle := NetTiles.le nets ht
    simp only [List.mem_cons, exists_eq_or_imp, ih, Net.mem_iff_toNat hd]
    omega

theorem NetTiles.aligned : ∀ (nets : List (Net w)) {lo hi : ℕ}, NetTiles lo nets hi →
    ∀ n ∈ nets, n.masked = n ∧ lo ≤ n.addr.toNat
  | [], _, _, _, n, hn => by simp at hn
  | m :: nets, lo, hi, h, n, hn => by
    obtain ⟨rfl, hd, ht⟩ := h
    rcases List.mem_cons.mp hn with rfl | hn
    · exact ⟨Net.masked_eq hd, le_rfl⟩
    · have := NetTiles.aligned nets ht n hn
      exact ⟨this.1, (Nat.le_add_right _ _).trans this.2⟩

/-- The networks cover the range exactly, aligned, ascending and apart from each other. -/
structure ExactCover (nets : List (Net w)) (start stop : BitVec w) : Prop where
  aligned : ∀ n ∈ nets, n.masked = n
  ascending : nets.Pairwise fun a b => a.addr.toNat < b.addr.toNat
  disjoint : nets.Pairwise fun a b => ∀ x, ¬ (a.Mem x ∧ b.Mem x)
  cover : ∀ x, (∃ n ∈ nets, n.Mem x) ↔ start.toNat ≤ x.toNat ∧ x.toNat ≤ stop.toNat

theorem NetTiles.pairwise : ∀ (nets : List (Net w)) {lo hi : ℕ}, NetTiles lo nets hi →
    (nets.Pairwise fun a b => a.addr.toNat < b.addr.toNat) ∧
    nets.Pairwise fun a b => ∀ x, ¬ (a.Mem x ∧ b.Mem x)
  | [], _, _, _ => ⟨List.Pairwise.nil, List.Pairwise.nil⟩
  | n :: nets, lo, hi, h => by
    obtain ⟨rfl, hd, ht⟩ := h
    have ih := NetTiles.pairwise nets ht
    have hpos : 0 < 2 ^ (w - n.prefixLen) := Nat.two_pow_pos _
    refine ⟨List.pairwise_cons.mpr ⟨fun m hm => ?_, ih.1⟩,
      List.pairwise_cons.mpr ⟨fun m hm x hx => ?_, ih.2⟩⟩
    · have := (NetTiles.aligned nets ht m hm).2
      omega
    · have h1 := (Net.mem_iff_toNat hd x).mp hx.1
      have h2 := (NetTiles.mem_iff nets ht x).mp ⟨m, hm, hx.2⟩
      omega

theorem NetTiles.exactCover {nets : List (Net w)} {start stop : BitVec w}
    (h : NetTiles start.toNat nets (stop.toNat + 1)) : ExactCover nets start stop where
  aligned n hn := (NetTiles.aligned nets h n hn).1
  ascending := (NetTiles.pairwise nets h).1
  disjoint := (NetTiles.pairwise nets h).2
  cover x := by
    rw [NetTiles.mem_iff nets h x]
    omega

end Nets

section Range

/-- The networks are those of one family, and cover the range exactly. -/
def RangeExact (start stop : IpAddr) (networks : List IpNet) : Prop :=
  match start, stop with
  | .v4 s, .v4 e => ∃ nets, networks = nets.map .v4 ∧ ExactCover nets s e
  | .v6 s, .v6 e => ∃ nets, networks = nets.map .v6 ∧ ExactCover nets s e
  | _, _ => False

/-- The endpoints are of one family, the first not above the second. -/
def IpAddr.Le : IpAddr → IpAddr → Prop
  | .v4 s, .v4 e => s.toNat ≤ e.toNat
  | .v6 s, .v6 e => s.toNat ≤ e.toNat
  | _, _ => False

/-- A range of IPv6 addresses that starts at `::` and ends before the last address. -/
def PartialFromZero (start stop : IpAddr) : Prop :=
  start = .v6 0 ∧ stop ≠ .v6 (BitVec.allOnes 128)

theorem width_cases {w : ℕ} {start stop : BitVec w} (hw : w ≤ 128)
    (hle : start.toNat ≤ stop.toNat) :
    (∃ cidrs nets, rangeToCidrs start.toNat stop.toNat w = .ok cidrs ∧
      (cidrsToNets cidrs : Except Fault (List (Net w))) = .ok nets ∧ ExactCover nets start stop ∧
      ¬ (w = 128 ∧ start.toNat = 0 ∧ stop.toNat ≠ 2 ^ w - 1)) ∨
    (rangeToCidrs start.toNat stop.toNat w = .error .panic ∧
      w = 128 ∧ start.toNat = 0 ∧ stop.toNat ≠ 2 ^ w - 1) := by
  rcases rangeToCidrs_cases hw hle stop.isLt with ⟨cidrs, hrun, ht, hno⟩ | hbug
  · obtain ⟨nets, hnets, htiles⟩ := cidrsToNets_tiles cidrs ht (by omega)
    exact Or.inl ⟨cidrs, nets, hrun, hnets, htiles.exactCover, hno⟩
  · exact Or.inr hbug

theorem partialFromZero_iff {start stop : BitVec 128} :
    PartialFromZero (.v6 start) (.v6 stop) ↔ start.toNat = 0 ∧ stop.toNat ≠ 2 ^ 128 - 1 := by
  unfold PartialFromZero
  rw [IpAddr.v6.injEq, Ne, IpAddr.v6.injEq, BitVec.toNat_eq, BitVec.toNat_eq, BitVec.toNat_allOnes]
  rfl

/-- The networks of a range cover it exactly, unless it is a partial one from `::`, for which the
computation overflows. -/
theorem rangeToNetworks_cases {start stop : IpAddr} (hle : start.Le stop) :
    (∃ networks, rangeToNetworks start stop = .ok networks ∧ RangeExact start stop networks ∧
      ¬ PartialFromZero start stop) ∨
    (rangeToNetworks start stop = .error .panic ∧ PartialFromZero start stop) := by
  cases start with
  | v4 s =>
    cases stop with
    | v6 e => exact hle.elim
    | v4 e =>
      have hle' : s.toNat ≤ e.toNat := hle
      rcases width_cases (by decide) hle' with ⟨cidrs, nets, h1, h2, hcover, -⟩ | ⟨-, h, -⟩
      · refine Or.inl ⟨nets.map .v4, ?_, ⟨nets, rfl, hcover⟩, fun h => by cases h.1⟩
        unfold rangeToNetworks
        simp only []
        rw [if_neg (by omega), h1]
        simp only [bind, Except.bind, h2]
      · exact absurd h (by decide)
  | v6 s =>
    cases stop with
    | v4 e => exact hle.elim
    | v6 e =>
      have hle' : s.toNat ≤ e.toNat := hle
      rw [partialFromZero_iff]
      rcases width_cases (by decide) hle' with ⟨cidrs, nets, h1, h2, hcover, hno⟩ | ⟨h1, -, h0, hstop⟩
      · refine Or.inl ⟨nets.map .v6, ?_, ⟨nets, rfl, hcover⟩, fun h => hno ⟨rfl, h.1, h.2⟩⟩
        unfold rangeToNetworks
        simp only []
        rw [if_neg (by omega), h1]
        simp only [bind, Except.bind, h2]
      · refine Or.inr ⟨?_, h0, hstop⟩
        unfold rangeToNetworks
        simp only []
        rw [if_neg (by omega), h1]
        rfl

end Range

end MmdbWriter
