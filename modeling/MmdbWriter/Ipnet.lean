import MmdbWriter.Lib.Bits

/-!
# Addresses and networks

The address types of the standard library and the network types of the `ipnet` crate. What the
crate computes with networks, `trunc` and `contains`, is not in the repository: `Ipnet` holds the
two functions with what the crate documents about them.
-/

namespace MmdbWriter

/-- `std::net::IpAddr`. -/
inductive IpAddr where
  | v4 (addr : BitVec 32)
  | v6 (addr : BitVec 128)
deriving DecidableEq, Repr

/-- A network: an address, host bits and all, and the number of bits that count. -/
structure Net (w : ℕ) where
  addr : BitVec w
  prefixLen : ℕ
  prefixLen_le : prefixLen ≤ w
deriving DecidableEq, Repr

/-- `ipnet::Ipv4Net`. -/
abbrev Ipv4Net := Net 32

/-- `ipnet::Ipv6Net`. -/
abbrev Ipv6Net := Net 128

/-- `ipnet::IpNet`. -/
inductive IpNet where
  | v4 (net : Ipv4Net)
  | v6 (net : Ipv6Net)
deriving DecidableEq, Repr

namespace Net

variable {w : ℕ}

/-- `Ipv4Net::new` and `Ipv6Net::new`: an error when the prefix length is too long. -/
def new (addr : BitVec w) (prefixLen : ℕ) : Option (Net w) :=
  if h : prefixLen ≤ w then some ⟨addr, prefixLen, h⟩ else none

/-- The network's bits that count, the host bits left out. -/
def path (n : Net w) : List Bool := n.addr.msbs.take n.prefixLen

/-- The address is one of the network's. -/
def Mem (n : Net w) (x : BitVec w) : Prop :=
  x >>> (w - n.prefixLen) = n.addr >>> (w - n.prefixLen)

instance (n : Net w) (x : BitVec w) : Decidable (n.Mem x) :=
  inferInstanceAs (Decidable (_ = _))

/-- The network with its host bits cleared. -/
def masked (n : Net w) : Net w :=
  ⟨(n.addr >>> (w - n.prefixLen)) <<< (w - n.prefixLen), n.prefixLen, n.prefixLen_le⟩

/-- The network of one address. -/
def host (x : BitVec w) : Net w := ⟨x, w, le_rfl⟩

theorem length_path (n : Net w) : n.path.length = n.prefixLen := by
  simp [path, n.prefixLen_le]

theorem mem_iff_path (n : Net w) (x : BitVec w) : n.Mem x ↔ n.path <+: x.msbs := by
  rw [path, BitVec.take_msbs_prefix_iff n.prefixLen_le, Mem, eq_comm]

theorem path_masked (n : Net w) : n.masked.path = n.path := by
  simp only [path, masked, BitVec.take_msbs_eq_iff n.prefixLen_le]
  apply BitVec.eq_of_getMsbD_eq
  intro i hi
  simp only [BitVec.getMsbD_ushiftRight, BitVec.getMsbD_shiftLeft]
  by_cases h : i < w - n.prefixLen
  · simp [h]
  · have h1 : i - (w - n.prefixLen) + (w - n.prefixLen) = i := by omega
    have h2 : i - (w - n.prefixLen) < w := by omega
    simp [h, h1, hi]

theorem forall_mem_iff (a b : Net w) : (∀ x, b.Mem x → a.Mem x) ↔ a.path <+: b.path := by
  constructor
  · intro h
    have hb := h b.addr ((mem_iff_path b b.addr).mpr (List.take_prefix _ _))
    rw [mem_iff_path] at hb
    by_cases hle : a.prefixLen ≤ b.prefixLen
    · exact List.prefix_of_prefix_length_le hb (List.take_prefix _ _)
        (by rw [length_path, length_path]; exact hle)
    · exfalso
      have hbw : b.prefixLen < w := lt_of_lt_of_le (by omega) a.prefixLen_le
      have hlen : (b.path ++ (!b.addr.getMsbD b.prefixLen) ::
          List.replicate (w - b.prefixLen - 1) false).length = w := by
        simp only [List.length_append, length_path, List.length_cons, List.length_replicate]
        omega
      obtain ⟨x, hx⟩ := BitVec.exists_msbs hlen
      have hxb : b.Mem x := by
        rw [mem_iff_path, hx]
        exact List.prefix_append _ _
      have hxa := (mem_iff_path a x).mp (h x hxb)
      rw [List.prefix_iff_eq_take, length_path] at hb hxa
      have h1 := congrArg (·[b.prefixLen]?) (hb.symm.trans hxa)
      have hlt : b.prefixLen < a.prefixLen := by omega
      have h2 : (b.path ++ (!b.addr.getMsbD b.prefixLen) ::
          List.replicate (w - b.prefixLen - 1) false)[b.prefixLen]? =
            some (!b.addr.getMsbD b.prefixLen) := by
        rw [List.getElem?_append_right (by rw [length_path]), length_path, Nat.sub_self]
        rfl
      simp only [List.getElem?_take, hlt, if_true, hx, h2, BitVec.getElem?_msbs, hbw,
        Option.some.injEq] at h1
      cases hbit : b.addr.getMsbD b.prefixLen <;> simp [hbit] at h1
  · intro h x hx
    rw [mem_iff_path] at hx ⊢
    exact h.trans hx

end Net

/-- The functions of the `ipnet` crate that the writer calls. `trunc` returns a network with its
host bits cleared; `contains` tests whether a network of the same family lies in another one. -/
class Ipnet where
  trunc : IpNet → IpNet
  contains : IpNet → IpNet → Bool
  trunc_v4 : ∀ n : Ipv4Net, trunc (.v4 n) = .v4 n.masked
  trunc_v6 : ∀ n : Ipv6Net, trunc (.v6 n) = .v6 n.masked
  contains_v4 : ∀ a b : Ipv4Net, contains (.v4 a) (.v4 b) = true ↔ ∀ x, b.Mem x → a.Mem x
  contains_v6 : ∀ a b : Ipv6Net, contains (.v6 a) (.v6 b) = true ↔ ∀ x, b.Mem x → a.Mem x
  contains_v4_v6 : ∀ (a : Ipv4Net) (b : Ipv6Net), contains (.v4 a) (.v6 b) = false
  contains_v6_v4 : ∀ (a : Ipv6Net) (b : Ipv4Net), contains (.v6 a) (.v4 b) = false

/-- The crate's functions, computed: a network lies in another one when its prefix is at least as
long and its address is one of the other's. -/
@[reducible] def Ipnet.std : Ipnet where
  trunc
    | .v4 n => .v4 n.masked
    | .v6 n => .v6 n.masked
  contains
    | .v4 a, .v4 b => decide (a.path <+: b.path)
    | .v6 a, .v6 b => decide (a.path <+: b.path)
    | _, _ => false
  trunc_v4 _ := rfl
  trunc_v6 _ := rfl
  contains_v4 a b := by rw [Net.forall_mem_iff]; simp
  contains_v6 a b := by rw [Net.forall_mem_iff]; simp
  contains_v4_v6 _ _ := rfl
  contains_v6_v4 _ _ := rfl

namespace IpNet

/-- `IpNet::from(ip)`: the network of the one address. -/
def ofAddr : IpAddr → IpNet
  | .v4 x => .v4 (.host x)
  | .v6 x => .v6 (.host x)

end IpNet

end MmdbWriter
