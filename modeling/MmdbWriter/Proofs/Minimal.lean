import MmdbWriter.Proofs.Range

/-!
# The networks of a range are as few as can be

At each start the loop takes the longest aligned block that ends within the range, so every block of
the range lies in one of the blocks taken. Blocks apart from each other of which that is true are
fewer than those of any other list with the same union.
-/

namespace MmdbWriter

section Blocks

variable {N A : Type} {mem : N → A → Prop} {S : A → Prop} {blocks : List N}

/-- Blocks apart from each other, each with an address, in one of which every block of the set
lies. -/
structure Coarsest (mem : N → A → Prop) (S : A → Prop) (blocks : List N) : Prop where
  cover : ∀ a, (∃ n ∈ blocks, mem n a) ↔ S a
  nonempty : ∀ n ∈ blocks, ∃ a, mem n a
  disjoint : blocks.Pairwise fun n n' => ∀ a, ¬ (mem n a ∧ mem n' a)
  maximal : ∀ m, (∀ a, mem m a → S a) → ∃ n ∈ blocks, ∀ a, mem m a → mem n a

namespace Coarsest

theorem eq_of_mem (h : Coarsest mem S blocks) {n n' : N} (hn : n ∈ blocks) (hn' : n' ∈ blocks)
    {a : A} (ha : mem n a) (ha' : mem n' a) : n = n' := by
  by_contra hne
  have : Std.Symm fun n n' : N => ∀ a, ¬ (mem n a ∧ mem n' a) :=
    ⟨fun _ _ hnn b hb => hnn b ⟨hb.2, hb.1⟩⟩
  exact h.disjoint.forall hn hn' hne a ⟨ha, ha'⟩

theorem nodup (h : Coarsest mem S blocks) : blocks.Nodup := by
  refine h.disjoint.imp_of_mem fun hn _ hnn => ?_
  rintro rfl
  obtain ⟨a, ha⟩ := h.nonempty _ hn
  exact hnn a ⟨ha, ha⟩

/-- Each of the blocks is the one in which some block of any other list lies. -/
theorem length_le (h : Coarsest mem S blocks) {others : List N}
    (hothers : ∀ a, (∃ m ∈ others, mem m a) ↔ S a) : blocks.length ≤ others.length := by
  classical
  have hin : ∀ m ∈ others, ∃ n ∈ blocks, ∀ a, mem m a → mem n a := fun m hm =>
    h.maximal m fun a ha => (hothers a).mp ⟨m, hm, ha⟩
  let f : N → Option N := fun m =>
    if hm : m ∈ others then some (hin m hm).choose else none
  have hsub : blocks.map some ⊆ others.map f := by
    intro o ho
    obtain ⟨n, hn, rfl⟩ := List.mem_map.mp ho
    obtain ⟨a, ha⟩ := h.nonempty n hn
    obtain ⟨m, hm, hma⟩ := (hothers a).mpr ((h.cover a).mp ⟨n, hn, ha⟩)
    obtain ⟨hmem, hle⟩ := (hin m hm).choose_spec
    refine List.mem_map.mpr ⟨m, hm, ?_⟩
    have hf : f m = some (hin m hm).choose := dif_pos hm
    rw [hf, h.eq_of_mem hmem hn (hle a hma) ha]
  have hnd : (blocks.map some).Nodup := h.nodup.map (Option.some_injective N)
  have := (hnd.subperm hsub).length_le
  rwa [List.length_map, List.length_map] at this

/-- No two of the blocks are the two parts of one block. -/
theorem eq_of_union (h : Coarsest mem S blocks) {m n n' : N} (hn : n ∈ blocks) (hn' : n' ∈ blocks)
    (hm : ∀ a, mem m a ↔ mem n a ∨ mem n' a) : n = n' := by
  have hS : ∀ a, mem m a → S a := by
    intro a ha
    rcases (hm a).mp ha with h₁ | h₁
    · exact (h.cover a).mp ⟨n, hn, h₁⟩
    · exact (h.cover a).mp ⟨n', hn', h₁⟩
  obtain ⟨k, hk, hle⟩ := h.maximal m hS
  obtain ⟨a, ha⟩ := h.nonempty n hn
  obtain ⟨a', ha'⟩ := h.nonempty n' hn'
  have h₁ : k = n := h.eq_of_mem hk hn (hle a ((hm a).mpr (Or.inl ha))) ha
  have h₂ : k = n' := h.eq_of_mem hk hn' (hle a' ((hm a').mpr (Or.inr ha'))) ha'
  exact h₁.symm.trans h₂

end Coarsest

end Blocks

section Greedy

variable {start stop totalBits : ℕ}

theorem le_trailingZeros : ∀ (width n j : ℕ), n ≠ 0 → n < 2 ^ width → 2 ^ j ∣ n →
    j ≤ trailingZeros width n
  | 0, n, j, h, hn, _ => by
    rw [pow_zero] at hn
    omega
  | width + 1, n, 0, _, _, _ => Nat.zero_le _
  | width + 1, n, j + 1, h, hn, hd => by
    obtain ⟨c, rfl⟩ := hd
    have heven : 2 ^ (j + 1) * c = 2 * (2 ^ j * c) := by ring
    unfold trailingZeros
    rw [heven] at h hn ⊢
    rw [if_neg (by omega), Nat.mul_div_cancel_left _ (by decide : 0 < 2)]
    rw [pow_succ] at hn
    have := le_trailingZeros width (2 ^ j * c) j (by omega) (by omega) ⟨c, rfl⟩
    omega

/-- The inner loop stops at the longest block that ends within the range. -/
theorem shrinkBlock_max : ∀ {size k : ℕ}, shrinkBlock start stop size = .ok k → ∀ j ≤ size,
    start + 2 ^ j ≤ stop + 1 → j ≤ k
  | 0, k, h, j, hj, _ => by omega
  | size + 1, k, h, j, hj, hend => by
    unfold shrinkBlock at h
    rcases hb : shl128 (size + 1) with e | block <;> rw [hb] at h
    · cases h
    rcases ha : add128 start (block - 1) with e | last <;>
      simp only [bind, Except.bind, ha, reduceCtorEq] at h
    have hblock : block = 2 ^ (size + 1) := by
      unfold shl128 at hb
      split_ifs at hb
      exact (Except.ok.inj hb).symm
    have hlast : last = start + (block - 1) := by
      unfold add128 at ha
      split_ifs at ha
      exact (Except.ok.inj ha).symm
    split_ifs at h with hle
    · rw [Except.ok.injEq] at h
      omega
    · rcases Nat.lt_or_ge size j with hlt | hge
      · obtain rfl : j = size + 1 := by omega
        have hpos : 0 < 2 ^ (size + 1) := Nat.two_pow_pos _
        omega
      · exact shrinkBlock_max h j hge hend

/-- The block at a start is the longest aligned one that ends within the range. -/
theorem blockSize_max {k : ℕ} (h : blockSize start stop totalBits = .ok k) (hstart : start < 2 ^ 128)
    {j : ℕ} (hj : j ≤ totalBits) (hd : 2 ^ j ∣ start) (hend : start + 2 ^ j ≤ stop + 1) : j ≤ k := by
  unfold blockSize at h
  refine shrinkBlock_max h j ?_ hend
  split_ifs with h0
  · exact hj
  · exact le_min (le_trailingZeros 128 start j h0 hstart hd) hj

theorem rangeLoop_max (hstop : stop < 2 ^ 128) (start : ℕ) {cidrs : List (ℕ × ℕ)}
    (hle : start ≤ stop) (h : rangeLoop start stop totalBits = .ok cidrs) : ∀ c ∈ cidrs, ∀ j ≤ totalBits, 2 ^ j ∣ c.1 →
    c.1 + 2 ^ j ≤ stop + 1 → j ≤ totalBits - c.2 := by
  unfold rangeLoop at h
  rcases hsize : blockSize start stop totalBits with _ | size
  · simp only [hsize, reduceCtorEq] at h
  have hhead : ∀ j ≤ totalBits, 2 ^ j ∣ start → start + 2 ^ j ≤ stop + 1 →
      j ≤ totalBits - (totalBits - size) := by
    intro j hj hd hend
    have := blockSize_max hsize (by omega) hj hd hend
    omega
  simp only [hsize] at h
  split at h
  · cases h
  rename_i block hb
  split at h
  · rename_i next hn
    split_ifs at h with hnext
    · rcases hrest : rangeLoop next stop totalBits with _ | rest
      · simp only [hrest, reduceCtorEq] at h
      have hlt := lt_checkedAdd128 hb hn
      simp only [hrest, Except.ok.injEq] at h
      subst h
      rw [List.forall_mem_cons]
      exact ⟨hhead, rangeLoop_max hstop next hnext hrest⟩
    · rw [Except.ok.injEq] at h
      subst h
      simpa using hhead
  · rw [Except.ok.injEq] at h
    subst h
    simpa using hhead
termination_by stop - start

end Greedy

section Nets

variable {w : ℕ} {nets : List (Net w)} {start stop : BitVec w}

theorem Net.dvd_masked (n : Net w) : 2 ^ (w - n.prefixLen) ∣ n.masked.addr.toNat := by
  unfold masked
  rw [BitVec.toNat_shiftLeft, BitVec.toNat_ushiftRight, Nat.shiftRight_eq_div_pow, Nat.shiftLeft_eq]
  have hle : n.addr.toNat / 2 ^ (w - n.prefixLen) * 2 ^ (w - n.prefixLen) ≤ n.addr.toNat :=
    Nat.div_mul_le_self _ _
  rw [Nat.mod_eq_of_lt (lt_of_le_of_lt hle n.addr.isLt)]
  exact Dvd.intro_left _ rfl

theorem Net.mem_masked (n : Net w) (x : BitVec w) : n.masked.Mem x ↔ n.Mem x := by
  rw [mem_iff_path, mem_iff_path, path_masked]

/-- Every network has its addresses from an aligned one on. -/
theorem Net.exists_base (n : Net w) : ∃ a : ℕ, 2 ^ (w - n.prefixLen) ∣ a ∧
    a + 2 ^ (w - n.prefixLen) ≤ 2 ^ w ∧
    ∀ x, n.Mem x ↔ a ≤ x.toNat ∧ x.toNat < a + 2 ^ (w - n.prefixLen) := by
  refine ⟨n.masked.addr.toNat, n.dvd_masked, ?_, fun x => ?_⟩
  · exact add_pow_le n.dvd_masked (Nat.sub_le _ _) n.masked.addr.isLt
  · rw [← n.mem_masked x, mem_iff_toNat (n := n.masked) n.dvd_masked]
    rfl

/-- An aligned block that starts in another aligned one lies in it, or starts where it does and is
longer. -/
theorem block_le {a b j k : ℕ} (ha : 2 ^ k ∣ a) (hb : 2 ^ j ∣ b) (h₁ : a ≤ b) (h₂ : b < a + 2 ^ k) :
    b + 2 ^ j ≤ a + 2 ^ k ∨ a = b ∧ k < j := by
  rcases Nat.lt_or_ge k j with hlt | hge
  · right
    refine ⟨?_, hlt⟩
    obtain ⟨c, rfl⟩ := ha
    obtain ⟨d, rfl⟩ := (Nat.pow_dvd_pow 2 hlt.le).trans hb
    have hpos : 0 < 2 ^ k := Nat.two_pow_pos k
    have h3 : d < c + 1 := Nat.lt_of_mul_lt_mul_left (a := 2 ^ k) (by rwa [Nat.mul_add, Nat.mul_one])
    have h4 : c ≤ d := Nat.le_of_mul_le_mul_left h₁ hpos
    rw [show c = d by omega]
  · left
    obtain ⟨c, rfl⟩ := (Nat.pow_dvd_pow 2 hge).trans ha
    obtain ⟨d, rfl⟩ := hb
    obtain ⟨e, he⟩ := Nat.pow_dvd_pow 2 hge
    rw [he, ← Nat.mul_add] at h₂ ⊢
    have h3 : d + 1 ≤ c + e := Nat.lt_of_mul_lt_mul_left h₂
    calc 2 ^ j * d + 2 ^ j = 2 ^ j * (d + 1) := by ring
      _ ≤ 2 ^ j * (c + e) := Nat.mul_le_mul_left _ h3

theorem coarsest_of_max (hcover : ExactCover nets start stop)
    (hmax : ∀ n ∈ nets, ∀ j ≤ w, 2 ^ j ∣ n.addr.toNat → n.addr.toNat + 2 ^ j ≤ stop.toNat + 1 →
      j ≤ w - n.prefixLen) :
    Coarsest Net.Mem (fun x => start.toNat ≤ x.toNat ∧ x.toNat ≤ stop.toNat) nets where
  cover := hcover.cover
  nonempty n _ := ⟨n.addr, rfl⟩
  disjoint := hcover.disjoint
  maximal m hm := by
    obtain ⟨b, hbd, hbw, hb⟩ := m.exists_base
    have hpos : 0 < 2 ^ (w - m.prefixLen) := Nat.two_pow_pos _
    have hlast : b + 2 ^ (w - m.prefixLen) ≤ stop.toNat + 1 := by
      have hx : (BitVec.ofNat w (b + 2 ^ (w - m.prefixLen) - 1)).toNat =
          b + 2 ^ (w - m.prefixLen) - 1 := by
        rw [BitVec.toNat_ofNat, Nat.mod_eq_of_lt (by omega)]
      have := (hm _ ((hb _).mpr (by rw [hx]; omega))).2
      omega
    have hx : (BitVec.ofNat w b).toNat = b := by
      rw [BitVec.toNat_ofNat, Nat.mod_eq_of_lt (by omega)]
    obtain ⟨n, hn, hnb⟩ := (hcover.cover (BitVec.ofNat w b)).mpr
      (hm _ ((hb _).mpr (by rw [hx]; omega)))
    have hnd : 2 ^ (w - n.prefixLen) ∣ n.addr.toNat := by
      have := n.dvd_masked
      rwa [hcover.aligned n hn] at this
    rw [Net.mem_iff_toNat hnd, hx] at hnb
    refine ⟨n, hn, fun x hmx => ?_⟩
    rw [Net.mem_iff_toNat hnd]
    rw [hb] at hmx
    rcases block_le hnd hbd hnb.1 hnb.2 with hle | ⟨hab, hlt⟩
    · omega
    · have := hmax n hn (w - m.prefixLen) (Nat.sub_le _ _) (by rwa [hab]) (by rwa [hab])
      omega

theorem mem_cidrsToNets : ∀ {cidrs : List (ℕ × ℕ)} {nets : List (Net w)},
    cidrsToNets cidrs = .ok nets → ∀ n ∈ nets, ∃ c ∈ cidrs, n.addr = BitVec.ofNat w c.1 ∧
      n.prefixLen = c.2
  | [], nets, h, n, hn => by
    unfold cidrsToNets at h
    rw [List.mapM_nil] at h
    cases h
    simp at hn
  | c :: cidrs, nets, h, n, hn => by
    unfold cidrsToNets at h
    rw [List.mapM_cons] at h
    rcases hc : Net.new (BitVec.ofNat w c.1) c.2 with _ | m
    · rw [hc] at h
      cases h
    rw [hc] at h
    rcases hrest : (cidrsToNets cidrs : Except Fault (List (Net w))) with e | rest
    · unfold cidrsToNets at hrest
      rw [hrest] at h
      cases h
    have hrest' := hrest
    unfold cidrsToNets at hrest
    rw [hrest] at h
    cases h
    rcases List.mem_cons.mp hn with rfl | hn
    · unfold Net.new at hc
      split_ifs at hc
      rw [Option.some.injEq] at hc
      exact ⟨c, List.mem_cons_self, by rw [← hc], by rw [← hc]⟩
    · obtain ⟨c', hc', h'⟩ := mem_cidrsToNets hrest' n hn
      exact ⟨c', List.mem_cons_of_mem _ hc', h'⟩

theorem Tiles.mem_lt : ∀ {cidrs : List (ℕ × ℕ)} {lo hi : ℕ}, Tiles w lo cidrs hi →
    ∀ c ∈ cidrs, c.1 < hi
  | [], _, _, _, c, hc => by simp at hc
  | (_, len) :: cidrs, lo, hi, h, c, hc => by
    have hle := Tiles.le cidrs h.2.2.2
    have hpos : 0 < 2 ^ (w - len) := Nat.two_pow_pos _
    rcases List.mem_cons.mp hc with rfl | hc
    · rw [h.1]
      omega
    · exact Tiles.mem_lt h.2.2.2 c hc

/-- The networks cut from a range of one family. -/
theorem coarsest_of_run (hw : w ≤ 128) (hle : start.toNat ≤ stop.toNat) {cidrs : List (ℕ × ℕ)}
    (hrun : rangeToCidrs start.toNat stop.toNat w = .ok cidrs) (hnets : cidrsToNets cidrs = .ok nets)
    (hcover : ExactCover nets start stop) :
    Coarsest Net.Mem (fun x => start.toNat ≤ x.toNat ∧ x.toNat ≤ stop.toNat) nets := by
  have hpow : 2 ^ w ≤ 2 ^ 128 := Nat.pow_le_pow_right (by decide) hw
  have hstop := stop.isLt
  have htiles : Tiles w start.toNat cidrs (stop.toNat + 1) := by
    rcases rangeToCidrs_cases hw hle hstop with ⟨cidrs', hrun', ht, -⟩ | ⟨herr, -⟩
    · rw [hrun, Except.ok.injEq] at hrun'
      rwa [hrun']
    · rw [hrun] at herr
      cases herr
  refine coarsest_of_max hcover fun n hn j hj hd hend => ?_
  obtain ⟨c, hc, haddr, hlen⟩ := mem_cidrsToNets hnets n hn
  have hlt := htiles.mem_lt c hc
  have hbase : n.addr.toNat = c.1 := by
    rw [haddr, BitVec.toNat_ofNat, Nat.mod_eq_of_lt (by omega)]
  rw [hbase] at hd hend
  rw [hlen]
  unfold rangeToCidrs at hrun
  split_ifs at hrun with hall
  · rw [Except.ok.injEq] at hrun
    rw [← hrun, List.mem_singleton] at hc
    rw [hc]
    exact hj
  · exact rangeLoop_max (by omega) _ hle hrun c hc j hj hd hend

end Nets

section Range

/-- The network has the address, of its own family. -/
def IpNet.Has : IpNet → IpAddr → Prop
  | .v4 n, .v4 x => n.Mem x
  | .v6 n, .v6 x => n.Mem x
  | _, _ => False

/-- The address lies in the range, one of its own family. -/
def IpAddr.Within (start stop : IpAddr) : IpAddr → Prop
  | .v4 x => ∃ s e, start = .v4 s ∧ stop = .v4 e ∧ s.toNat ≤ x.toNat ∧ x.toNat ≤ e.toNat
  | .v6 x => ∃ s e, start = .v6 s ∧ stop = .v6 e ∧ s.toNat ≤ x.toNat ∧ x.toNat ≤ e.toNat

theorem Coarsest.lift {w : ℕ} {nets : List (Net w)} {start stop : BitVec w} {S : IpAddr → Prop}
    (toNet : Net w → IpNet) (toAddr : BitVec w → IpAddr)
    (hmem : ∀ n x, (toNet n).Has (toAddr x) ↔ n.Mem x)
    (hS : ∀ x, S (toAddr x) ↔ start.toNat ≤ x.toNat ∧ x.toNat ≤ stop.toNat)
    (haddr : ∀ n ip, (toNet n).Has ip → ∃ x, ip = toAddr x)
    (hS' : ∀ ip, S ip → ∃ x, ip = toAddr x)
    (hnet : ∀ m : IpNet, (∀ ip, m.Has ip → S ip) → ∃ n, m = toNet n)
    (h : Coarsest Net.Mem (fun x => start.toNat ≤ x.toNat ∧ x.toNat ≤ stop.toNat) nets) :
    Coarsest IpNet.Has S (nets.map toNet) where
  cover ip := by
    constructor
    · rintro ⟨_, hmap, hip⟩
      obtain ⟨n, hn, rfl⟩ := List.mem_map.mp hmap
      obtain ⟨x, rfl⟩ := haddr n ip hip
      exact (hS x).mpr ((h.cover x).mp ⟨n, hn, (hmem n x).mp hip⟩)
    · intro hip
      obtain ⟨x, rfl⟩ := hS' ip hip
      obtain ⟨n, hn, hx⟩ := (h.cover x).mpr ((hS x).mp hip)
      exact ⟨toNet n, List.mem_map_of_mem hn, (hmem n x).mpr hx⟩
  nonempty _ hmap := by
    obtain ⟨n, hn, rfl⟩ := List.mem_map.mp hmap
    obtain ⟨x, hx⟩ := h.nonempty n hn
    exact ⟨toAddr x, (hmem n x).mpr hx⟩
  disjoint := by
    rw [List.pairwise_map]
    refine h.disjoint.imp fun {n n'} hnn ip hip => ?_
    obtain ⟨x, rfl⟩ := haddr n ip hip.1
    exact hnn x ⟨(hmem n x).mp hip.1, (hmem n' x).mp hip.2⟩
  maximal m hm := by
    obtain ⟨n, rfl⟩ := hnet m hm
    obtain ⟨k, hk, hle⟩ := h.maximal n fun x hx => (hS x).mp (hm _ ((hmem n x).mpr hx))
    refine ⟨toNet k, List.mem_map_of_mem hk, fun ip hip => ?_⟩
    obtain ⟨x, rfl⟩ := haddr n ip hip
    exact (hmem k x).mpr (hle x ((hmem n x).mp hip))

theorem coarsest_v4 {nets : List Ipv4Net} {s e : BitVec 32}
    (h : Coarsest Net.Mem (fun x => s.toNat ≤ x.toNat ∧ x.toNat ≤ e.toNat) nets) :
    Coarsest IpNet.Has (IpAddr.Within (.v4 s) (.v4 e)) (nets.map .v4) := by
  refine Coarsest.lift IpNet.v4 IpAddr.v4 (fun _ _ => Iff.rfl)
    (fun x => ?_) (fun n ip hip => ?_) (fun ip hip => ?_) (fun m hm => ?_) h
  · simp [IpAddr.Within]
  · cases ip with
    | v4 x => exact ⟨x, rfl⟩
    | v6 x => exact hip.elim
  · cases ip with
    | v4 x => exact ⟨x, rfl⟩
    | v6 x =>
      obtain ⟨s', e', h', -⟩ := hip
      cases h'
  · cases m with
    | v4 n => exact ⟨n, rfl⟩
    | v6 n =>
      obtain ⟨s', e', h', -⟩ := hm (.v6 n.addr) (show n.Mem n.addr from rfl)
      cases h'

theorem coarsest_v6 {nets : List Ipv6Net} {s e : BitVec 128}
    (h : Coarsest Net.Mem (fun x => s.toNat ≤ x.toNat ∧ x.toNat ≤ e.toNat) nets) :
    Coarsest IpNet.Has (IpAddr.Within (.v6 s) (.v6 e)) (nets.map .v6) := by
  refine Coarsest.lift IpNet.v6 IpAddr.v6 (fun _ _ => Iff.rfl)
    (fun x => ?_) (fun n ip hip => ?_) (fun ip hip => ?_) (fun m hm => ?_) h
  · simp [IpAddr.Within]
  · cases ip with
    | v6 x => exact ⟨x, rfl⟩
    | v4 x => exact hip.elim
  · cases ip with
    | v6 x => exact ⟨x, rfl⟩
    | v4 x =>
      obtain ⟨s', e', h', -⟩ := hip
      cases h'
  · cases m with
    | v6 n => exact ⟨n, rfl⟩
    | v4 n =>
      obtain ⟨s', e', h', -⟩ := hm (.v4 n.addr) (show n.Mem n.addr from rfl)
      cases h'

theorem coarsest_rangeToNetworks {start stop : IpAddr} (hle : start.Le stop) {networks : List IpNet}
    (h : rangeToNetworks start stop = .ok networks) :
    Coarsest IpNet.Has (IpAddr.Within start stop) networks := by
  cases start with
  | v4 s =>
    cases stop with
    | v6 e => exact hle.elim
    | v4 e =>
      have hle' : s.toNat ≤ e.toNat := hle
      rcases width_cases (by decide) hle' with ⟨cidrs, nets, h1, h2, hcover, -⟩ | ⟨-, h, -⟩
      · unfold rangeToNetworks at h
        simp only [if_neg (by omega : ¬ s.toNat > e.toNat), h1, h2, bind, Except.bind,
          Except.ok.injEq] at h
        rw [← h]
        exact coarsest_v4 (coarsest_of_run (by decide) hle' h1 h2 hcover)
      · exact absurd h (by decide)
  | v6 s =>
    cases stop with
    | v4 e => exact hle.elim
    | v6 e =>
      have hle' : s.toNat ≤ e.toNat := hle
      unfold rangeToNetworks at h
      simp only [if_neg (by omega : ¬ s.toNat > e.toNat)] at h
      rcases width_cases (by decide) hle' with ⟨cidrs, nets, h1, h2, hcover, -⟩ | ⟨h1, -⟩
      · simp only [h1, h2, bind, Except.bind, Except.ok.injEq] at h
        rw [← h]
        exact coarsest_v6 (coarsest_of_run (by decide) hle' h1 h2 hcover)
      · simp only [h1, bind, Except.bind, reduceCtorEq] at h

/-- The networks of a range are the fewest that cover it exactly: no two of them are the halves of
one network, and every network of the range lies in one of them. -/
theorem rangeToNetworks_minimal {start stop : IpAddr} (hle : start.Le stop) (h0 : start ≠ .v6 0) :
    ∃ networks, rangeToNetworks start stop = .ok networks ∧ RangeExact start stop networks ∧
      (∀ others : List IpNet, (∀ ip, (∃ n ∈ others, n.Has ip) ↔ IpAddr.Within start stop ip) →
        networks.length ≤ others.length) ∧
      (∀ m : IpNet, ∀ n ∈ networks, ∀ n' ∈ networks, (∀ ip, m.Has ip ↔ n.Has ip ∨ n'.Has ip) → n = n') ∧
      ∀ m : IpNet, (∀ ip, m.Has ip → IpAddr.Within start stop ip) →
        ∃ n ∈ networks, ∀ ip, m.Has ip → n.Has ip := by
  rcases rangeToNetworks_cases hle with ⟨networks, hrun, hexact, -⟩ | ⟨-, hbug⟩
  · have hc := coarsest_rangeToNetworks hle hrun
    exact ⟨networks, hrun, hexact, fun others => hc.length_le,
      fun m n hn n' hn' => hc.eq_of_union hn hn', hc.maximal⟩
  · exact absurd hbug.1 h0

theorem rangeToNetworks_minimal_three : ∃ networks,
    rangeToNetworks (.v4 0x01020301) (.v4 0x01020304) = .ok networks ∧ networks.length = 3 ∧
    ∀ others : List IpNet,
      (∀ ip, (∃ n ∈ others, n.Has ip) ↔ IpAddr.Within (.v4 0x01020301) (.v4 0x01020304) ip) →
      3 ≤ others.length := by
  have hle : IpAddr.Le (.v4 0x01020301) (.v4 0x01020304) := by
    show (0x01020301 : BitVec 32).toNat ≤ (0x01020304 : BitVec 32).toNat
    decide
  obtain ⟨networks, hrun, -, hleast, -⟩ := rangeToNetworks_minimal hle (by simp)
  have hlen : (rangeToNetworks (.v4 0x01020301) (.v4 0x01020304)).toOption.map List.length =
      some 3 := by decide +kernel
  rw [hrun] at hlen
  have hlen : networks.length = 3 := Option.some.inj hlen
  rw [hlen] at hleast
  exact ⟨networks, hrun, hlen, hleast⟩

end Range

end MmdbWriter
