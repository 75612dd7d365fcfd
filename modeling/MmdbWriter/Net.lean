import MmdbWriter.Options

/-!
# Networks of the tree

The conversion from a network to the bits the tree walks, the alias networks, the reserved networks,
and the decomposition of an address range into networks.

Arithmetic on `u128` is checked: an operation that overflows is a panic.
-/

namespace MmdbWriter

section Prefix

variable [Ipnet]

/-- `to_tree_prefix`: the bits and the prefix length to walk. IPv4 lies under `::/96` in a V6 tree
and at the top 32 bits in a V4 tree. -/
def toTreePrefix (net : IpNet) (ipVersion : IpVersion) : Except Fault (BitVec 128 × ℕ) :=
  match ipVersion, Ipnet.trunc net with
  | .v6, .v6 v6 => .ok (v6.addr, v6.prefixLen)
  | .v6, .v4 v4 => .ok (v4.addr.setWidth 128, 96 + v4.prefixLen)
  | .v4, .v4 v4 => .ok (v4.addr.setWidth 128 <<< 96, v4.prefixLen)
  | .v4, .v6 v6 => .error (.err (.ipv6InIpv4Tree v6))

end Prefix

/-- The network `a.b.c.d/p`. -/
def cidr4 (a b c d p : ℕ) (h : p ≤ 32 := by decide) : Ipv4Net :=
  ⟨BitVec.ofNat 32 (((a * 256 + b) * 256 + c) * 256 + d), p, h⟩

/-- The network of prefix length `p` whose address starts with the 16-bit groups. -/
def cidr6 (groups : List ℕ) (p : ℕ) (h : p ≤ 128 := by decide) : Ipv6Net :=
  ⟨BitVec.ofNat 128 ((List.range 8).foldl (fun addr i => addr * 65536 + groups.getD i 0) 0), p, h⟩

/-- The IPv6 networks aliased to the IPv4 subtree: IPv4-mapped, Teredo, and 6to4. -/
def aliasNetworks : List IpNet :=
  [.v6 (cidr6 [0, 0, 0, 0, 0, 0xffff] 96), .v6 (cidr6 [0x2001] 32), .v6 (cidr6 [0x2002] 16)]

namespace Reserved

/-- IPv4 reserved networks. -/
def ipv4 : List IpNet :=
  [.v4 (cidr4 0 0 0 0 8), .v4 (cidr4 10 0 0 0 8), .v4 (cidr4 100 64 0 0 10),
    .v4 (cidr4 127 0 0 0 8), .v4 (cidr4 169 254 0 0 16), .v4 (cidr4 172 16 0 0 12),
    .v4 (cidr4 192 0 0 0 29), .v4 (cidr4 192 0 2 0 24), .v4 (cidr4 192 88 99 0 24),
    .v4 (cidr4 192 168 0 0 16), .v4 (cidr4 198 18 0 0 15), .v4 (cidr4 198 51 100 0 24),
    .v4 (cidr4 203 0 113 0 24), .v4 (cidr4 224 0 0 0 4), .v4 (cidr4 240 0 0 0 4)]

/-- IPv6 reserved networks. -/
def ipv6 : List IpNet :=
  [.v6 (cidr6 [0x100] 64), .v6 (cidr6 [0x2001, 0x1] 32), .v6 (cidr6 [0x2001, 0x2] 31),
    .v6 (cidr6 [0x2001, 0x4] 30), .v6 (cidr6 [0x2001, 0x8] 29), .v6 (cidr6 [0x2001, 0x10] 28),
    .v6 (cidr6 [0x2001, 0x20] 27), .v6 (cidr6 [0x2001, 0x40] 26), .v6 (cidr6 [0x2001, 0x80] 25),
    .v6 (cidr6 [0x2001, 0x100] 24), .v6 (cidr6 [0x2001, 0xdb8] 32), .v6 (cidr6 [0xfc00] 7),
    .v6 (cidr6 [0xfe80] 10), .v6 (cidr6 [0xff00] 8)]

/-- The reserved networks of a database of the IP version: a V6 database reserves the IPv4 ones,
under `::/96`, and the IPv6 ones. -/
def networks : IpVersion → List IpNet
  | .v4 => ipv4
  | .v6 => ipv4 ++ ipv6

end Reserved

section Range

/-- `1u128 << size`. -/
def shl128 (size : ℕ) : Except Fault ℕ :=
  if size < 128 then .ok (2 ^ size) else .error .panic

/-- `a + b` on `u128`. -/
def add128 (a b : ℕ) : Except Fault ℕ :=
  if a + b < 2 ^ 128 then .ok (a + b) else .error .panic

/-- `u128::checked_add`. -/
def checkedAdd128 (a b : ℕ) : Option ℕ :=
  if a + b < 2 ^ 128 then some (a + b) else none

/-- The zero bits at the low end of a word of the given width. -/
def trailingZeros : ℕ → ℕ → ℕ
  | 0, _ => 0
  | width + 1, n => if n % 2 = 1 then 0 else trailingZeros width (n / 2) + 1

/-- `max_for_bits`. -/
def maxForBits (totalBits : ℕ) : ℕ :=
  if totalBits ≥ 128 then 2 ^ 128 - 1 else 2 ^ totalBits - 1

/-- The inner loop of `range_to_cidrs`: shrink the block until it ends within the range. -/
def shrinkBlock (start stop : ℕ) : ℕ → Except Fault ℕ
  | 0 => .ok 0
  | size + 1 => do
    let block ← shl128 (size + 1)
    let blockEnd ← add128 start (block - 1)
    if blockEnd ≤ stop then .ok (size + 1) else shrinkBlock start stop size

/-- The block at `start`: its alignment bounds its size, and so does the end of the range. -/
def blockSize (start stop totalBits : ℕ) : Except Fault ℕ :=
  let alignBits := if start = 0 then totalBits else min (trailingZeros 128 start) totalBits
  shrinkBlock start stop alignBits

theorem lt_checkedAdd128 {start size block next : ℕ} (hb : shl128 size = .ok block)
    (hn : checkedAdd128 start block = some next) : start < next := by
  have hpos : 0 < 2 ^ size := Nat.two_pow_pos size
  unfold shl128 at hb
  unfold checkedAdd128 at hn
  split_ifs at hb hn
  rw [Except.ok.injEq] at hb
  rw [Option.some.injEq] at hn
  omega

/-- The outer loop of `range_to_cidrs`. -/
def rangeLoop (start stop totalBits : ℕ) : Except Fault (List (ℕ × ℕ)) :=
  match blockSize start stop totalBits with
  | .error e => .error e
  | .ok size =>
    match _hb : shl128 size with
    | .error e => .error e
    | .ok block =>
      match _hn : checkedAdd128 start block with
      | some next =>
        if _hle : next ≤ stop then
          match rangeLoop next stop totalBits with
          | .error e => .error e
          | .ok cidrs => .ok ((start, totalBits - size) :: cidrs)
        else .ok [(start, totalBits - size)]
      | none => .ok [(start, totalBits - size)]
termination_by stop - start
decreasing_by
  have := lt_checkedAdd128 _hb _hn
  omega

/-- `range_to_cidrs`: base and prefix length of each block of the range. -/
def rangeToCidrs (start stop totalBits : ℕ) : Except Fault (List (ℕ × ℕ)) :=
  if start = 0 ∧ stop = maxForBits totalBits then .ok [(0, 0)]
  else rangeLoop start stop totalBits

/-- `Ipv4Net::new(..).expect(..)` on each block. -/
def cidrsToNets {w : ℕ} (cidrs : List (ℕ × ℕ)) : Except Fault (List (Net w)) :=
  cidrs.mapM fun c => match Net.new (BitVec.ofNat w c.1) c.2 with
    | some net => .ok net
    | none => .error .panic

/-- `range_to_networks`. -/
def rangeToNetworks (start stop : IpAddr) : Except Fault (List IpNet) :=
  match start, stop with
  | .v4 s, .v4 e => do
    if s.toNat > e.toNat then
      .error (.err (.invalidRange "start address is greater than end address"))
    else
      let cidrs ← rangeToCidrs s.toNat e.toNat 32
      let nets ← cidrsToNets cidrs
      .ok (nets.map .v4)
  | .v6 s, .v6 e => do
    if s.toNat > e.toNat then
      .error (.err (.invalidRange "start address is greater than end address"))
    else
      let cidrs ← rangeToCidrs s.toNat e.toNat 128
      let nets ← cidrsToNets cidrs
      .ok (nets.map .v6)
  | _, _ => .error (.err (.invalidRange "start and end are different IP families"))

end Range

end MmdbWriter
