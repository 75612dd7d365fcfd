import MmdbWriter.Net

/-!
# The address space of a database

Which addresses a network covers in a database of an IP version, and the bits the search tree finds
an address or a network at. In a V6 database the IPv4 addresses are those under `::/96`.
-/

namespace MmdbWriter

/-- The network covers the address in a database of the IP version. -/
def IpNet.Covers (ipVersion : IpVersion) : IpNet → IpAddr → Prop
  | .v4 n, .v4 x => n.Mem x
  | .v6 n, .v6 x => n.Mem x
  | .v6 n, .v4 x => ipVersion = .v6 ∧ n.Mem (x.setWidth 128)
  | .v4 n, .v6 x => ipVersion = .v6 ∧ x >>> 32 = 0 ∧ n.Mem (x.setWidth 32)

instance (ipVersion : IpVersion) : ∀ (net : IpNet) (ip : IpAddr),
    Decidable (net.Covers ipVersion ip)
  | .v4 n, .v4 x => inferInstanceAs (Decidable (n.Mem x))
  | .v6 n, .v6 x => inferInstanceAs (Decidable (n.Mem x))
  | .v6 n, .v4 x => inferInstanceAs (Decidable (_ ∧ n.Mem (x.setWidth 128)))
  | .v4 n, .v6 x => inferInstanceAs (Decidable (_ ∧ x >>> 32 = 0 ∧ n.Mem (x.setWidth 32)))

/-- The bits of an address of the database. -/
def addrPath (ipVersion : IpVersion) : IpAddr → Option (List Bool)
  | .v4 x => match ipVersion with
    | .v4 => some x.msbs
    | .v6 => some (List.replicate 96 false ++ x.msbs)
  | .v6 x => match ipVersion with
    | .v4 => none
    | .v6 => some x.msbs

/-- The bits of a network of the database. -/
def netPath (ipVersion : IpVersion) : IpNet → Option (List Bool)
  | .v4 n => match ipVersion with
    | .v4 => some n.path
    | .v6 => some (List.replicate 96 false ++ n.path)
  | .v6 n => match ipVersion with
    | .v4 => none
    | .v6 => some n.path

section Bits

variable {w : ℕ}

theorem msbs_setWidth_le (x : BitVec w) {v : ℕ} (h : v ≤ w) :
    (x.setWidth v).msbs = x.msbs.drop (w - v) := by
  apply List.ext_getElem?
  intro i
  rw [BitVec.getElem?_msbs, List.getElem?_drop, BitVec.getElem?_msbs]
  by_cases hi : i < v
  · rw [if_pos hi, if_pos (by omega)]
    simp only [BitVec.getMsbD_eq_getLsbD, BitVec.getLsbD_setWidth]
    have h1 : v - 1 - i < v := by omega
    have h2 : w - v + i < w := by omega
    have h3 : w - 1 - (w - v + i) = v - 1 - i := by omega
    simp [hi, h1, h2, h3]
  · rw [if_neg hi, if_neg (by omega)]

theorem msbs_zero : (0 : BitVec w).msbs = List.replicate w false := by
  apply List.ext_getElem?
  intro i
  rw [BitVec.getElem?_msbs, List.getElem?_replicate]
  simp

/-- The low 32 bits of an address of `::/96` are its IPv4 address. -/
theorem msbs_eq_append (x : BitVec 128) (h : x >>> 32 = 0) :
    x.msbs = List.replicate 96 false ++ (x.setWidth 32).msbs := by
  have htake : x.msbs.take 96 = List.replicate 96 false := by
    have := (BitVec.take_msbs_eq_iff (k := 96) (x := x) (y := 0) (by decide)).mpr (by simp [h])
    rw [this, msbs_zero, List.take_replicate]
    rfl
  rw [msbs_setWidth_le x (by decide), ← htake, List.take_append_drop]

theorem shiftRight_of_prefix (x : BitVec 128) {p : List Bool}
    (h : List.replicate 96 false ++ p <+: x.msbs) : x >>> 32 = 0 := by
  have hpre : List.replicate 96 false <+: x.msbs := (List.prefix_append _ _).trans h
  have htake : x.msbs.take 96 = (0 : BitVec 128).msbs.take 96 := by
    rw [List.prefix_iff_eq_take, List.length_replicate] at hpre
    rw [← hpre, msbs_zero, List.take_replicate]
    rfl
  have := (BitVec.take_msbs_eq_iff (k := 96) (by decide)).mp htake
  simpa using this

end Bits

section Paths

variable {ipVersion : IpVersion}

theorem length_addrPath {ip : IpAddr} {q : List Bool} (h : addrPath ipVersion ip = some q) :
    q.length = ipVersion.treeDepth := by
  cases ip <;> cases ipVersion <;> simp only [addrPath, Option.some.injEq, reduceCtorEq] at h <;>
    rw [← h] <;> simp [IpVersion.treeDepth]

theorem length_netPath_le {net : IpNet} {p : List Bool} (h : netPath ipVersion net = some p) :
    p.length ≤ ipVersion.treeDepth := by
  cases net with
  | v4 n =>
    have := n.prefixLen_le
    cases ipVersion <;> simp only [netPath, Option.some.injEq] at h <;> rw [← h] <;>
      simp [IpVersion.treeDepth, Net.length_path] <;> omega
  | v6 n =>
    have := n.prefixLen_le
    cases ipVersion <;> simp only [netPath, Option.some.injEq, reduceCtorEq] at h
    rw [← h]
    simp [IpVersion.treeDepth, Net.length_path]
    omega

/-- Every bit string of the tree's depth is the bits of an address. -/
theorem exists_addrPath (ipVersion : IpVersion) {q : List Bool}
    (h : q.length = ipVersion.treeDepth) : ∃ ip, addrPath ipVersion ip = some q := by
  cases ipVersion with
  | v4 =>
    obtain ⟨x, rfl⟩ := BitVec.exists_msbs h
    exact ⟨.v4 x, rfl⟩
  | v6 =>
    obtain ⟨x, rfl⟩ := BitVec.exists_msbs h
    exact ⟨.v6 x, rfl⟩

/-- A network covers an address exactly when its bits are the first bits of the address. -/
theorem covers_iff_path {net : IpNet} {ip : IpAddr} {p q : List Bool}
    (hp : netPath ipVersion net = some p) (hq : addrPath ipVersion ip = some q) :
    net.Covers ipVersion ip ↔ p <+: q := by
  cases net with
  | v4 n =>
    cases ip with
    | v4 x =>
      cases ipVersion <;> simp only [netPath, addrPath, Option.some.injEq] at hp hq <;>
        subst hp <;> subst hq
      · exact Net.mem_iff_path n x
      · rw [List.prefix_append_right_inj]
        exact Net.mem_iff_path n x
    | v6 x =>
      cases ipVersion <;> simp only [netPath, addrPath, Option.some.injEq, reduceCtorEq] at hp hq
      subst hp
      subst hq
      simp only [IpNet.Covers, true_and]
      constructor
      · rintro ⟨h0, hm⟩
        rw [msbs_eq_append x h0, List.prefix_append_right_inj]
        exact (Net.mem_iff_path n _).mp hm
      · intro h
        have h0 := shiftRight_of_prefix x h
        rw [msbs_eq_append x h0, List.prefix_append_right_inj] at h
        exact ⟨h0, (Net.mem_iff_path n _).mpr h⟩
  | v6 n =>
    cases ip with
    | v4 x =>
      cases ipVersion <;> simp only [netPath, addrPath, Option.some.injEq, reduceCtorEq] at hp hq
      subst hp
      subst hq
      simp only [IpNet.Covers, true_and]
      rw [Net.mem_iff_path, BitVec.msbs_setWidth x (by decide)]
    | v6 x =>
      cases ipVersion <;> simp only [netPath, addrPath, Option.some.injEq, reduceCtorEq] at hp hq
      subst hp
      subst hq
      exact Net.mem_iff_path n x

theorem netPath_ofAddr (ip : IpAddr) : netPath ipVersion (.ofAddr ip) = addrPath ipVersion ip := by
  have hpath : ∀ {w : ℕ} (x : BitVec w), (Net.host x).path = x.msbs := by
    intro w x
    simp [Net.path, Net.host]
  cases ip <;> cases ipVersion <;> simp [netPath, addrPath, IpNet.ofAddr, hpath]

section Prefix

variable [Ipnet]

theorem toTreePrefix_v4 (n : Ipv4Net) : toTreePrefix (.v4 n) .v4 =
    .ok (n.masked.addr.setWidth 128 <<< 96, n.prefixLen) := by
  unfold toTreePrefix
  rw [Ipnet.trunc_v4]
  rfl

theorem toTreePrefix_v4_in_v6 (n : Ipv4Net) : toTreePrefix (.v4 n) .v6 =
    .ok (n.masked.addr.setWidth 128, 96 + n.prefixLen) := by
  unfold toTreePrefix
  rw [Ipnet.trunc_v4]
  rfl

theorem toTreePrefix_v6 (n : Ipv6Net) : toTreePrefix (.v6 n) .v6 =
    .ok (n.masked.addr, n.prefixLen) := by
  unfold toTreePrefix
  rw [Ipnet.trunc_v6]
  rfl

theorem toTreePrefix_v6_in_v4 (n : Ipv6Net) : toTreePrefix (.v6 n) .v4 =
    .error (.err (.ipv6InIpv4Tree n.masked)) := by
  unfold toTreePrefix
  rw [Ipnet.trunc_v6]

/-- The walk to a network is along its bits; only an IPv6 network in a V4 tree has none. -/
theorem toTreePrefix_cases (net : IpNet) (ipVersion : IpVersion) :
    (∃ bits len, toTreePrefix net ipVersion = .ok (bits, len) ∧ len ≤ ipVersion.treeDepth ∧
      netPath ipVersion net = some (bits.msbs.take len)) ∨
    (∃ n, net = .v6 n ∧ ipVersion = .v4 ∧ netPath ipVersion net = none ∧
      toTreePrefix net ipVersion = .error (.err (.ipv6InIpv4Tree n.masked))) := by
  cases net with
  | v4 n =>
    left
    have hp := n.prefixLen_le
    cases ipVersion with
    | v4 =>
      refine ⟨_, _, toTreePrefix_v4 n, hp, ?_⟩
      have h1 : (n.masked.addr.setWidth 128 <<< 96).msbs =
          n.masked.addr.msbs ++ List.replicate 96 false := by
        rw [BitVec.msbs_shiftLeft _ (by decide), BitVec.msbs_setWidth _ (by decide),
          List.drop_left' (by simp)]
      rw [h1, List.take_append_of_le_length (by rw [BitVec.length_msbs]; exact hp)]
      exact congrArg some (Net.path_masked n).symm
    | v6 =>
      refine ⟨_, _, toTreePrefix_v4_in_v6 n, ?_, ?_⟩
      · simp only [IpVersion.treeDepth]
        omega
      · have h1 : (n.masked.addr.setWidth 128).msbs =
            List.replicate 96 false ++ n.masked.addr.msbs := BitVec.msbs_setWidth _ (by decide)
        have h2 : (List.replicate 96 false ++ n.masked.addr.msbs).take (96 + n.prefixLen) =
            List.replicate 96 false ++ n.masked.path := by
          rw [List.take_append, List.length_replicate, List.take_of_length_le (by simp),
            Nat.add_sub_cancel_left]
          rfl
        rw [h1, h2, Net.path_masked]
        rfl
  | v6 n =>
    cases ipVersion with
    | v4 => exact Or.inr ⟨n, rfl, rfl, rfl, toTreePrefix_v6_in_v4 n⟩
    | v6 =>
      left
      refine ⟨_, _, toTreePrefix_v6 n, n.prefixLen_le, ?_⟩
      have h : netPath .v6 (.v6 n) = some n.path := rfl
      rw [h, ← Net.path_masked n]
      rfl

end Prefix

end Paths

end MmdbWriter
