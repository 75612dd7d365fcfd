import MmdbWriter.Proofs.Orders

/-!
# IPv4 addresses in both kinds of database

A V6 database keeps the IPv4 addresses under `::/96`, and a V4 database refuses IPv6 networks. The same
inserts give both the same answers for the IPv4 addresses, if no IPv6 network of them has any.
-/

namespace MmdbWriter

open BitTrie (leaf node)

namespace IpNet

/-- The network is an IPv4 one, or has no IPv4 address. -/
def OffIpv4 : IpNet → Prop
  | v4 _ => True
  | v6 n => ∀ x : BitVec 32, ¬ n.Mem (x.setWidth 128)

/-- A one among the first 96 bits tells that there is none. -/
def isOffIpv4 : IpNet → Bool
  | v4 _ => true
  | v6 n => (n.path.take 96).contains true

theorem offIpv4_of_isOffIpv4 : ∀ {net : IpNet}, net.isOffIpv4 = true → net.OffIpv4
  | v4 _, _ => trivial
  | v6 n, h => fun x hx => by
    have hcovers : (IpNet.v6 n).Covers .v6 (.v4 x) := ⟨rfl, hx⟩
    have hpre : n.path <+: List.replicate 96 false ++ x.msbs := (covers_iff_path rfl rfl).mp hcovers
    have htake := hpre.take 96
    rw [List.take_left' (by simp)] at htake
    have hone : true ∈ n.path.take 96 := by simpa [isOffIpv4] using h
    cases List.eq_of_mem_replicate (htake.subset hone)

/-- Such a network covers the same IPv4 addresses in databases of both versions. -/
theorem OffIpv4.covers_iff {net : IpNet} (h : net.OffIpv4) (x : BitVec 32) :
    net.Covers .v4 (.v4 x) ↔ net.Covers .v6 (.v4 x) := by
  cases net with
  | v4 n => exact Iff.rfl
  | v6 n => exact ⟨fun hc => absurd hc.1 (by decide), fun hc => absurd hc.2 (h x)⟩

end IpNet

/-- The IPv4 reserved networks are those of a V4 database, and no other one has an IPv4 address. -/
theorem reservedAddr_versions (x : BitVec 32) :
    Writer.ReservedAddr .v4 (.v4 x) ↔ Writer.ReservedAddr .v6 (.v4 x) := by
  have hoff : ∀ net ∈ Reserved.networks .v6, net.isOffIpv4 = true := by decide +kernel
  have hsub : ∀ net ∈ Reserved.networks .v4, net ∈ Reserved.networks .v6 := fun net hnet =>
    List.mem_append_left _ hnet
  constructor
  · rintro ⟨net, hnet, hc⟩
    have hmem := hsub net hnet
    exact ⟨net, hmem, ((IpNet.offIpv4_of_isOffIpv4 (hoff net hmem)).covers_iff x).mp hc⟩
  · rintro ⟨net, hnet, hc⟩
    have hc' := ((IpNet.offIpv4_of_isOffIpv4 (hoff net hnet)).covers_iff x).mpr hc
    rcases List.mem_append.mp hnet with h | h
    · exact ⟨net, h, hc'⟩
    · -- a V4 database has no place for the rest
      have hnone : ∀ net ∈ Reserved.ipv6, netPath .v4 net = none := by decide +kernel
      have hno := hnone net h
      cases net with
      | v4 n => cases hno
      | v6 n => exact absurd hc'.1 (by decide)

namespace Writer

variable [Ipnet]

/-- The checks make no difference between the versions for an IPv4 network. -/
theorem accepts_v4_iff {w w' : Writer} (hver : w.ipVersion = .v4) (hver' : w'.ipVersion = .v6)
    (hres : w'.reservedNetworks = w.reservedNetworks) (n : Ipv4Net) :
    w.Accepts (.v4 n) ↔ w'.Accepts (.v4 n) := by
  have halias : (aliasNetworks.any fun a => Ipnet.contains a (.v4 n)) = false := by
    simp [aliasNetworks, Ipnet.contains_v6_v4]
  have hipv6 : (Reserved.ipv6.any fun r => Ipnet.contains r (.v4 n)) = false := by
    simp [Reserved.ipv6, Ipnet.contains_v6_v4]
  have hreserved : ((Reserved.networks .v6).any fun r => Ipnet.contains r (.v4 n)) =
      (Reserved.networks .v4).any fun r => Ipnet.contains r (.v4 n) := by
    show (Reserved.ipv4 ++ Reserved.ipv6).any _ = Reserved.ipv4.any _
    rw [List.any_append, hipv6, Bool.or_false]
  unfold Accepts ensureInsertable
  simp [hver, hver', hres, halias, hreserved, netPath]

/-- An IPv4 address has in a V6 database what it has in the V4 database of the same inserts, if no
IPv6 network among them has IPv4 addresses. -/
theorem get_v4_eq_v6 {b : WriterBuilder} {w w' : Writer}
    (hb : ({ b with ipVersion := .v4 } : WriterBuilder).build = .ok w)
    (hb' : ({ b with ipVersion := .v6 } : WriterBuilder).build = .ok w') (inserts : List Insert)
    (hoff : ∀ i ∈ inserts, i.net.OffIpv4) (hlim : RunInLimits (inserts.map .insert) w)
    (hlim' : RunInLimits (inserts.map .insert) w') (x : BitVec 32) :
    (run (inserts.map .insert) w).2.get (.v4 x) = (run (inserts.map .insert) w').2.get (.v4 x) := by
  have hempty : ∀ {b : WriterBuilder} {w : Writer}, b.build = .ok w → w.get (.v4 x) = .ok none ∧
      w.ipVersion = b.ipVersion ∧ w.reservedNetworks = b.reservedNetworks := by
    intro b w hb
    obtain ⟨w₁, l, r, hb₁, hopt, hinv, hnone, -⟩ := build_inv b
    rw [hb, Except.ok.injEq] at hb₁
    subst hb₁
    obtain ⟨q, hq⟩ : ∃ q, addrPath w.ipVersion (.v4 x) = some q := by
      cases w.ipVersion <;> exact ⟨_, rfl⟩
    exact ⟨by rw [hinv.get hq, hnone], by rw [hopt], by rw [hopt]⟩
  obtain ⟨hget, hver, hres⟩ := hempty hb
  obtain ⟨hget', hver', hres'⟩ := hempty hb'
  rw [(Reachable.of_build hb).get_run inserts hlim hget,
    (Reachable.of_build hb').get_run inserts hlim' hget', hver, hver', hres, hres']
  have hfilter : (inserts.filter fun i => w.Accepts i.net ∧ i.net.Covers .v4 (.v4 x)) =
      inserts.filter fun i => w'.Accepts i.net ∧ i.net.Covers .v6 (.v4 x) := by
    refine List.filter_congr fun i hi => ?_
    rw [decide_eq_decide, (hoff i hi).covers_iff x]
    have hoff := hoff i hi
    generalize i.net = net at hoff ⊢
    cases net with
    | v4 n => rw [accepts_v4_iff hver hver' (hres'.trans hres.symm)]
    | v6 n =>
      have hno : ¬ (IpNet.v6 n).Covers .v6 (.v4 x) := fun hc => hoff x hc.2
      simp [hno]
  simp only [hfilter, reservedAddr_versions x]

omit [Ipnet] in
/-- A network of IPv6 addresses is refused or inserted, and is on no IPv4 address either way. -/
theorem get_v4_eq_v6_global :
    let _ := Ipnet.std
    let inserts : List Insert := [.value (.v4 ⟨0x01000000, 8, by decide⟩) (.string "a"),
      .value (.v6 (cidr6 [0x2000] 3)) (.string "b")]
    ∃ w w' : Writer, ({ databaseType := "City", ipVersion := .v4 } : WriterBuilder).build = .ok w ∧
      ({ databaseType := "City", ipVersion := .v6 } : WriterBuilder).build = .ok w' ∧
      ∀ x, (run (inserts.map .insert) w).2.get (.v4 x) = (run (inserts.map .insert) w').2.get (.v4 x) := by
  intro _ inserts
  let b : WriterBuilder := { databaseType := "City" }
  let w : Writer :=
    { toWriterBuilder := { b with ipVersion := .v4 }, tree := Tree.new, pool := ValuePool.new }
  let w' : Writer :=
    { toWriterBuilder := { b with ipVersion := .v6 }, tree := Tree.new, pool := ValuePool.new }
  have hoff : ∀ i ∈ inserts, i.net.OffIpv4 := fun i hi => by
    rcases List.mem_cons.mp hi with rfl | hi
    · trivial
    · rw [List.mem_singleton.mp hi]
      exact IpNet.offIpv4_of_isOffIpv4 (by decide +kernel)
  have hlim : RunInLimits (inserts.map .insert) w ∧ RunInLimits (inserts.map .insert) w' := by
    constructor <;> refine ⟨⟨?_, ?_⟩, ⟨?_, ?_⟩, ?_, ?_⟩ <;> decide +kernel
  exact ⟨w, w', rfl, rfl, fun x =>
    get_v4_eq_v6 (b := b) rfl rfl inserts hoff hlim.1 hlim.2 x⟩

end Writer

end MmdbWriter
