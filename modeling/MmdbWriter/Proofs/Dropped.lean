import MmdbWriter.Proofs.Runs

/-!
# Inserts into reserved space

A writer that excludes the reserved networks compares an inserted network with one of them at a
time, and only with those of its own family.
-/

namespace MmdbWriter

open BitTrie (leaf node)

namespace Writer

/-- The network is inside an aliased one that the writer keeps for its aliases. -/
def InAliased [Ipnet] (w : Writer) (net : IpNet) : Prop :=
  w.ipVersion = .v6 ∧ w.ipv4Aliasing = .enabled ∧ ∃ a ∈ aliasNetworks, Ipnet.contains a net

/-- Every address of the network is reserved. -/
def AllReserved (w : Writer) (net : IpNet) : Prop :=
  ∀ ip, net.Covers w.ipVersion ip → ReservedAddr w.ipVersion ip

variable [Ipnet]

/-- What an insert while the reserved networks are excluded owes its caller: the error if all of
the network is reserved, else the value at every other address, and never a success that stores
nothing. -/
structure Reports (w : Writer) (net : IpNet) (v : Value) : Prop where
  err_iff : (insertValue net v w).1 = .error (.err (.reservedNetwork net)) ↔ w.AllReserved net
  stores : ¬ w.AllReserved net → (insertValue net v w).1 = .ok () ∧
    ∀ ip, net.Covers w.ipVersion ip → ¬ ReservedAddr w.ipVersion ip →
      (insertValue net v w).2.get ip = .ok (some v)
  ok_stores : (insertValue net v w).1 = .ok () →
    ∃ ip, net.Covers w.ipVersion ip ∧ (insertValue net v w).2.get ip = .ok (some v)

/-- A network inside a reserved one has reserved addresses only. -/
theorem allReserved_of_contains {w : Writer} {net reserved : IpNet}
    (hmem : reserved ∈ Reserved.networks w.ipVersion) (h : Ipnet.contains reserved net) :
    w.AllReserved net := by
  intro ip hip
  refine ⟨reserved, hmem, ?_⟩
  cases reserved with
  | v4 a =>
    cases net with
    | v4 b =>
      have hsub := (Ipnet.contains_v4 a b).mp h
      cases ip with
      | v4 x => exact hsub x hip
      | v6 x => exact ⟨hip.1, hip.2.1, hsub _ hip.2.2⟩
    | v6 b => simp [Ipnet.contains_v4_v6] at h
  | v6 a =>
    cases net with
    | v4 b => simp [Ipnet.contains_v6_v4] at h
    | v6 b =>
      have hsub := (Ipnet.contains_v6 a b).mp h
      cases ip with
      | v4 x => exact ⟨hip.1, hsub _ hip.2⟩
      | v6 x => exact hsub x hip

theorem ensureInsertable_of_not_aliased {w : Writer} {net : IpNet}
    (hexc : w.reservedNetworks = .excluded) (hal : ¬ w.InAliased net) :
    w.ensureInsertable net =
      if ∃ r ∈ Reserved.networks w.ipVersion, Ipnet.contains r net
      then .error (.err (.reservedNetwork net)) else .ok () := by
  unfold ensureInsertable
  rw [if_neg (fun h => hal ⟨h.1, h.2.1, List.any_eq_true.mp h.2.2⟩)]
  simp only [hexc, true_and, List.any_eq_true]

theorem insertValue_of_error {w : Writer} {net : IpNet} {e : Fault}
    (h : w.ensureInsertable net = .error e) (v : Value) :
    insertValue net v w = (.error e, w) := by
  unfold insertValue
  rw [Exec.bind_apply, Exec.read_apply]
  simp only [Exec.bind_apply, Exec.lift_apply, h]

/-- A network that is inside no reserved one of its family and yet all reserved is accepted, and
nothing is stored; every other insert does what it owes. -/
theorem reports_iff {w : Writer} (hw : w.Reachable) (hexc : w.reservedNetworks = .excluded)
    {net : IpNet} (hfit : (netPath w.ipVersion net).isSome) (hal : ¬ w.InAliased net) (v : Value)
    (hroom : (insertValue net v w).2.InLimits) :
    w.Reports net v ↔
      (∃ r ∈ Reserved.networks w.ipVersion, Ipnet.contains r net) ∨ ¬ w.AllReserved net := by
  obtain ⟨l, r, h⟩ := hw.inv
  have hens := ensureInsertable_of_not_aliased hexc hal
  by_cases hin : ∃ r ∈ Reserved.networks w.ipVersion, Ipnet.contains r net
  · obtain ⟨r, hmem, hr⟩ := hin
    have hall := allReserved_of_contains hmem hr
    rw [if_pos ⟨r, hmem, hr⟩] at hens
    have hval := insertValue_of_error hens v
    refine ⟨fun _ => Or.inl ⟨r, hmem, hr⟩, fun _ => ⟨?_, fun hno => absurd hall hno, ?_⟩⟩
    · rw [hval]
      exact ⟨fun _ => hall, fun _ => rfl⟩
    · rw [hval]
      intro hok
      cases hok
  · rw [if_neg hin] at hens
    obtain ⟨l', r', hinv, hopt, hacc, hvals⟩ := h.insert_value (.value net v) (Or.inr hroom)
    have hok : (insertValue net v w).1 = .ok () := hacc.mpr ⟨hens, hfit⟩
    have hno : (insertValue net v w).1 ≠ .error (.err (.reservedNetwork net)) := by
      rw [hok]
      intro herr
      cases herr
    have hver : (insertValue net v w).2.ipVersion = w.ipVersion := by
      exact congrArg (fun b : WriterBuilder => b.ipVersion) hopt
    have hstores : ∀ ip, net.Covers w.ipVersion ip → ¬ ReservedAddr w.ipVersion ip →
        (insertValue net v w).2.get ip = .ok (some v) := by
      intro ip hcov hres
      obtain ⟨p, hp⟩ := Option.isSome_iff_exists.mp hfit
      obtain ⟨q, hq⟩ : ∃ q, addrPath w.ipVersion ip = some q := by
        cases hq : addrPath w.ipVersion ip with
        | none => exact absurd hcov (not_covers_of_accepts ⟨hens, hfit⟩ hq)
        | some q => exact ⟨q, rfl⟩
      have hno : (node false l r).eval q ≠ .reserved := by
        rw [Ne, h.reserved_iff q (length_addrPath hq)]
        exact fun hex => hres ((reservedAddr_iff_path hexc hq).mpr hex)
      have hval : ((node false l' r').eval q).value = some v :=
        (hvals ip q hq hno).trans (if_pos ⟨hok, hcov⟩)
      have hget := hinv.get ((congrArg (addrPath · ip) hver).trans hq)
      exact hget.trans (by rw [hval])
    refine ⟨fun hrep => Or.inr fun hall => hno (hrep.err_iff.mpr hall), fun hor => ?_⟩
    have hsome : ¬ w.AllReserved net := hor.resolve_left hin
    refine ⟨⟨fun herr => absurd herr hno, fun hall => absurd hall hsome⟩,
      fun _ => ⟨hok, hstores⟩, fun _ => ?_⟩
    unfold AllReserved at hsome
    push Not at hsome
    obtain ⟨ip, hcov, hres⟩ := hsome
    exact ⟨ip, hcov, hstores ip hcov hres⟩

omit [Ipnet] in
theorem shiftRight_28 {x : BitVec 32} (h : x >>> 29 = 7) : x >>> 28 = 14 ∨ x >>> 28 = 15 := by
  have h29 : x.toNat / 2 ^ 29 = 7 := by
    have := congrArg BitVec.toNat h
    rwa [BitVec.toNat_ushiftRight, Nat.shiftRight_eq_div_pow] at this
  have h28 : x.toNat / 2 ^ 28 = 14 ∨ x.toNat / 2 ^ 28 = 15 := by omega
  rw [← Nat.shiftRight_eq_div_pow, ← BitVec.toNat_ushiftRight] at h28
  exact h28.imp (fun h => BitVec.eq_of_toNat_eq h) fun h => BitVec.eq_of_toNat_eq h

instance (w : Writer) : Decidable w.InLimits := inferInstanceAs (Decidable (_ ∧ _))

omit [Ipnet] in
theorem reports_iff_open :
    let _ := Ipnet.std
    ∃ w : Writer, ({ databaseType := "City", ipVersion := .v4, reservedNetworks := .excluded } :
        WriterBuilder).build = .ok w ∧
      w.Reports (.v4 ⟨0x01000000, 8, by decide⟩) (.string "a") := by
  intro _
  obtain ⟨w, l, r, hb, hopt, -⟩ := build_inv
    { databaseType := "City", ipVersion := .v4, reservedNetworks := .excluded }
  have hroom : (match ({ databaseType := "City", ipVersion := .v4, reservedNetworks := .excluded } :
      WriterBuilder).build with
    | .ok w => decide (insertValue (.v4 ⟨0x01000000, 8, by decide⟩) (.string "a") w).2.InLimits
    | .error _ => false) = true := by
    decide +kernel
  have hver : w.ipVersion = .v4 := by rw [hopt]
  rw [hb] at hroom
  have hexc : w.reservedNetworks = .excluded := by rw [hopt]
  refine ⟨w, hb, (reports_iff (Reachable.of_build hb) hexc ?_ ?_ _ (of_decide_eq_true hroom)).mpr
    (Or.inr fun hall => ?_)⟩
  · rw [hver]
    rfl
  · intro h
    have := h.1
    rw [hver] at this
    cases this
  · have := hall (.v4 0x01000001)
    rw [hver] at this
    revert this
    decide +kernel

omit [Ipnet] in
/-- `224.0.0.0/3` is the union of two reserved networks: the insert succeeds and stores nothing. -/
theorem not_reports_multicast :
    let _ := Ipnet.std
    ∃ w : Writer, ({ databaseType := "City", ipVersion := .v4, reservedNetworks := .excluded } :
        WriterBuilder).build = .ok w ∧
      (insertValue (.v4 ⟨0xE0000000, 3, by decide⟩) (.string "a") w).1 = .ok () ∧
      w.AllReserved (.v4 ⟨0xE0000000, 3, by decide⟩) ∧
      ¬ w.Reports (.v4 ⟨0xE0000000, 3, by decide⟩) (.string "a") := by
  intro _
  obtain ⟨w, l, r, hb, hopt, -⟩ := build_inv
    { databaseType := "City", ipVersion := .v4, reservedNetworks := .excluded }
  have hres : (match ({ databaseType := "City", ipVersion := .v4, reservedNetworks := .excluded } :
      WriterBuilder).build with
    | .ok w => (insertValue (.v4 ⟨0xE0000000, 3, by decide⟩) (.string "a") w).1
    | .error _ => .error .panic) = .ok () := by
    decide +kernel
  rw [hb] at hres
  have hver : w.ipVersion = .v4 := by rw [hopt]
  have hall : w.AllReserved (.v4 ⟨0xE0000000, 3, by decide⟩) := by
    intro ip hip
    rw [hver] at hip ⊢
    cases ip with
    | v6 x => exact absurd hip.1 (by simp)
    | v4 x =>
      have hx : x >>> 29 = 0xE0000000 >>> 29 := hip
      rcases shiftRight_28 (hx.trans (by decide)) with h | h
      · exact ⟨.v4 (cidr4 224 0 0 0 4), by decide, h.trans (by decide)⟩
      · exact ⟨.v4 (cidr4 240 0 0 0 4), by decide, h.trans (by decide)⟩
  refine ⟨w, hb, hres, hall, fun hrep => ?_⟩
  exact absurd (hres.symm.trans (hrep.err_iff.mpr hall)) (by simp)

end Writer

end MmdbWriter
