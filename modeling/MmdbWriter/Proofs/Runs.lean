import MmdbWriter.Proofs.Range

/-!
# Runs of calls

The invariant holds of every writer a run of calls leaves, whatever the calls return short of a
panic. A range that is accepted sets its addresses and no other.
-/

namespace MmdbWriter

open BitTrie (leaf node)

namespace Writer

variable [Ipnet]

/-- Two outcomes of a writer and its options are related by the invariant. -/
def Keeps (w w' : Writer) : Prop :=
  w'.toWriterBuilder = w.toWriterBuilder ∧ ∃ l r, w'.Inv l r

theorem Inv.insert_keeps {w : Writer} {l r : BitTrie (Leaf Value)} (h : w.Inv l r) (i : Insert)
    (hno : (i.exec w).1 ≠ .error .panic) : w.Keeps (i.exec w).2 := by
  have hstep := h.insert_step i
  generalize i.exec w = res at hstep hno
  cases hstep with
  | rejected _ => exact ⟨rfl, l, r, h⟩
  | done l' r' _ _ _ hopt hinv _ => exact ⟨hopt, l', r', hinv⟩
  | full l' r' _ hopt hinv _ _ => exact ⟨hopt, l', r', hinv⟩
  | panic _ => exact absurd rfl hno

theorem insertAll_cons (v : Value) (net : IpNet) (nets : List IpNet) (w : Writer) :
    insertAll v (net :: nets) w = match insertValue net v w with
      | (.ok (), w') => insertAll v nets w'
      | (.error e, w') => (.error e, w') := by
  rw [insertAll, Exec.bind_apply]
  rcases insertValue net v w with ⟨_ | _, _⟩ <;> rfl

theorem insertAll_keeps (v : Value) : ∀ (nets : List IpNet) {w : Writer}
    {l r : BitTrie (Leaf Value)}, w.Inv l r → (insertAll v nets w).1 ≠ .error .panic →
    w.Keeps (insertAll v nets w).2
  | [], w, l, r, h, _ => ⟨rfl, l, r, h⟩
  | net :: nets, w, l, r, h, hno => by
    have hkeep := h.insert_keeps (.value net v)
    have hexec : (Insert.value net v).exec w = insertValue net v w := rfl
    rw [hexec] at hkeep
    rw [insertAll_cons] at hno ⊢
    generalize insertValue net v w = res at hkeep hno ⊢
    rcases res with ⟨e | _, w'⟩
    · exact hkeep hno
    · obtain ⟨hopt, l', r', h'⟩ := hkeep (by simp)
      obtain ⟨hopt', hinv⟩ := insertAll_keeps v nets h' hno
      exact ⟨hopt'.trans hopt, hinv⟩

theorem insertRange_eq {start stop : IpAddr} {networks : List IpNet}
    (h : rangeToNetworks start stop = .ok networks) (v : Value) (w : Writer) :
    insertRange start stop v w = insertAll v networks w := by
  unfold insertRange
  rw [h]
  rfl

theorem insertRange_error {start stop : IpAddr} {e : Fault}
    (h : rangeToNetworks start stop = .error e) (v : Value) (w : Writer) :
    insertRange start stop v w = (.error e, w) := by
  unfold insertRange
  rw [h]
  rfl

/-- The step lemma of the calls. -/
theorem Inv.exec_keeps {w : Writer} {l r : BitTrie (Leaf Value)} (h : w.Inv l r) (c : Call)
    (hno : (exec c w).1 ≠ .error .panic) : w.Keeps (exec c w).2 := by
  cases c with
  | insert i => exact h.insert_keeps i hno
  | range start stop v =>
    have hexec : exec (.range start stop v) w = insertRange start stop v w := rfl
    rw [hexec] at hno ⊢
    cases hnets : rangeToNetworks start stop with
    | error e =>
      rw [insertRange_error hnets]
      exact ⟨rfl, l, r, h⟩
    | ok networks =>
      rw [insertRange_eq hnets] at hno ⊢
      exact insertAll_keeps v networks h hno

/-- The run lemma. -/
theorem Inv.run_keeps : ∀ (calls : List Call) {w : Writer} {l r : BitTrie (Leaf Value)},
    w.Inv l r → .error .panic ∉ (run calls w).1 → w.Keeps (run calls w).2
  | [], w, l, r, h, _ => ⟨rfl, l, r, h⟩
  | c :: calls, w, l, r, h, hno => by
    have hhead : (exec c w).1 ≠ .error .panic := fun hc => hno (by
      rw [run, hc]
      exact List.mem_cons_self)
    obtain ⟨hopt, l', r', h'⟩ := h.exec_keeps c hhead
    obtain ⟨hopt', hinv⟩ := run_keeps calls h' fun hc => hno (List.mem_cons_of_mem _ hc)
    exact ⟨hopt'.trans hopt, hinv⟩

theorem Reachable.of_build {b : WriterBuilder} {w : Writer} (h : b.build = .ok w) : w.Reachable :=
  ⟨b, w, [], h, by simp [run], rfl⟩

/-- Every reachable writer has the invariant. -/
theorem Reachable.inv {w : Writer} (h : w.Reachable) : ∃ l r, w.Inv l r := by
  obtain ⟨b, w₀, calls, hb, hno, rfl⟩ := h
  obtain ⟨w, l, r, hb', -, hinv, -⟩ := build_inv b
  rw [hb, Except.ok.injEq] at hb'
  subst hb'
  exact (Inv.run_keeps calls hinv hno).2

/-- What was reached is reached from there on. -/
theorem Reachable.exec {w : Writer} (h : w.Reachable) (c : Call)
    (hno : (exec c w).1 ≠ .error .panic) : (exec c w).2.Reachable := by
  obtain ⟨b, w₀, calls, hb, hpanic, rfl⟩ := h
  have happ : ∀ (calls : List Call) (w : Writer), run (calls ++ [c]) w =
      ((run calls w).1 ++ [(Writer.exec c (run calls w).2).1],
        (Writer.exec c (run calls w).2).2) := by
    intro calls
    induction calls with
    | nil => intro w; rfl
    | cons c' calls ih =>
      intro w
      rw [List.cons_append, run, ih]
      rfl
  refine ⟨b, w₀, calls ++ [c], hb, ?_, by rw [happ]⟩
  rw [happ, List.mem_append, List.mem_singleton]
  exact not_or.mpr ⟨hpanic, hno.symm⟩

section Range

/-- The address lies in the range, in a database of the IP version. -/
def InRange (ipVersion : IpVersion) (start stop ip : IpAddr) : Prop :=
  match start, stop, ip with
  | .v4 s, .v4 e, .v4 x => s.toNat ≤ x.toNat ∧ x.toNat ≤ e.toNat
  | .v4 s, .v4 e, .v6 x => ipVersion = .v6 ∧ x >>> 32 = 0 ∧
      s.toNat ≤ (x.setWidth 32).toNat ∧ (x.setWidth 32).toNat ≤ e.toNat
  | .v6 s, .v6 e, .v4 x => ipVersion = .v6 ∧ s.toNat ≤ (x.setWidth 128).toNat ∧
      (x.setWidth 128).toNat ≤ e.toNat
  | .v6 s, .v6 e, .v6 x => s.toNat ≤ x.toNat ∧ x.toNat ≤ e.toNat
  | _, _, _ => False

instance (ipVersion : IpVersion) : ∀ start stop ip : IpAddr,
    Decidable (InRange ipVersion start stop ip)
  | .v4 _, .v4 _, .v4 _ => inferInstanceAs (Decidable (_ ∧ _))
  | .v4 _, .v4 _, .v6 _ => inferInstanceAs (Decidable (_ ∧ _))
  | .v6 _, .v6 _, .v4 _ => inferInstanceAs (Decidable (_ ∧ _))
  | .v6 _, .v6 _, .v6 _ => inferInstanceAs (Decidable (_ ∧ _))
  | .v4 _, .v6 _, _ => inferInstanceAs (Decidable False)
  | .v6 _, .v4 _, _ => inferInstanceAs (Decidable False)

omit [Ipnet] in
theorem covers_iff_inRange {ipVersion : IpVersion} {start stop : IpAddr} {networks : List IpNet}
    (h : RangeExact start stop networks) (ip : IpAddr) :
    (∃ net ∈ networks, net.Covers ipVersion ip) ↔ InRange ipVersion start stop ip := by
  cases start with
  | v4 s =>
    cases stop with
    | v6 e => exact h.elim
    | v4 e =>
      obtain ⟨nets, rfl, hcover⟩ := h
      cases ip with
      | v4 x => simpa [IpNet.Covers, InRange] using hcover.cover x
      | v6 x =>
        have := hcover.cover (x.setWidth 32)
        simp only [InRange, ← this, List.mem_map, exists_exists_and_eq_and, IpNet.Covers]
        constructor
        · rintro ⟨n, hn, hv, h0, hm⟩
          exact ⟨hv, h0, n, hn, hm⟩
        · rintro ⟨hv, h0, n, hn, hm⟩
          exact ⟨n, hn, hv, h0, hm⟩
  | v6 s =>
    cases stop with
    | v4 e => exact h.elim
    | v6 e =>
      obtain ⟨nets, rfl, hcover⟩ := h
      cases ip with
      | v4 x =>
        have := hcover.cover (x.setWidth 128)
        simp only [InRange, ← this, List.mem_map, exists_exists_and_eq_and, IpNet.Covers]
        constructor
        · rintro ⟨n, hn, hv, hm⟩
          exact ⟨hv, n, hn, hm⟩
        · rintro ⟨hv, n, hn, hm⟩
          exact ⟨n, hn, hv, hm⟩
      | v6 x => simpa [IpNet.Covers, InRange] using hcover.cover x

/-- Inserts of one value at several networks, all accepted, set the addresses they cover. -/
theorem insertAll_value (v : Value) : ∀ (nets : List IpNet) {w : Writer}
    {l r : BitTrie (Leaf Value)}, w.Inv l r → (insertAll v nets w).1 = .ok () →
    ∃ l' r', (insertAll v nets w).2.Inv l' r' ∧
      (insertAll v nets w).2.toWriterBuilder = w.toWriterBuilder ∧
      (∀ net ∈ nets, w.Accepts net) ∧
      ∀ ip q, addrPath w.ipVersion ip = some q → (node false l r).eval q ≠ .reserved →
        ((node false l' r').eval q).value =
          if ∃ net ∈ nets, net.Covers w.ipVersion ip then some v
          else ((node false l r).eval q).value
  | [], w, l, r, h, _ => ⟨l, r, h, rfl, by simp, fun _ _ _ _ => by simp⟩
  | net :: nets, w, l, r, h, hok => by
    have hval := h.insert_value (.value net v)
    have hexec : (Insert.value net v).exec w = insertValue net v w := rfl
    rw [hexec] at hval
    rw [insertAll_cons] at hok ⊢
    generalize insertValue net v w = res at hval hok ⊢
    rcases res with ⟨e | _, w'⟩
    · simp at hok
    · obtain ⟨l₁, r₁, h₁, hopt, hacc, hval₁⟩ := hval (Or.inl rfl)
      obtain ⟨l', r', h', hopt', hacc', hval'⟩ := insertAll_value v nets h₁ hok
      have hver : w'.ipVersion = w.ipVersion := by rw [hopt]
      refine ⟨l', r', h', hopt'.trans hopt, ?_, fun ip q hq hres => ?_⟩
      · intro n hn
        rcases List.mem_cons.mp hn with rfl | hn
        · exact hacc.mp rfl
        · exact (accepts_congr hopt n).mp (hacc' n hn)
      · have hlen := length_addrPath hq
        have hpaths : w'.reservedPaths = w.reservedPaths := by rw [hopt]
        have hres₁ : (node false l₁ r₁).eval q ≠ .reserved := by
          rw [Ne, h₁.reserved_iff q (by rw [hver, hlen]), hpaths, ← h.reserved_iff q hlen]
          exact hres
        rw [hval' ip q (by rw [hver, hq]) hres₁, hval₁ ip q hq hres, hver]
        simp only [List.mem_cons, exists_eq_or_imp, true_and]
        by_cases hex : ∃ n ∈ nets, n.Covers w.ipVersion ip
        · rw [if_pos hex, if_pos (Or.inr hex)]
        · rw [if_neg hex]
          by_cases hc : net.Covers w.ipVersion ip
          · rw [if_pos (Or.inl hc)]
            exact if_pos hc
          · rw [if_neg (not_or.mpr ⟨hc, hex⟩)]
            exact if_neg hc

/-- An accepted range sets the addresses in it, those of excluded reserved networks apart, and no
other. -/
theorem get_insertRange {start stop : IpAddr} {networks : List IpNet}
    (hnets : rangeToNetworks start stop = .ok networks) (hexact : RangeExact start stop networks)
    {w : Writer} (hw : w.Reachable) (v : Value) (hok : (insertRange start stop v w).1 = .ok ())
    (ip : IpAddr) : (insertRange start stop v w).2.get ip =
      if InRange w.ipVersion start stop ip ∧
        ¬ (w.reservedNetworks = .excluded ∧ ReservedAddr w.ipVersion ip) then .ok (some v)
      else w.get ip := by
  obtain ⟨l, r, h⟩ := hw.inv
  rw [insertRange_eq hnets] at hok ⊢
  obtain ⟨l', r', h', hopt, hacc, hval⟩ := insertAll_value v networks h hok
  have hver : (insertAll v networks w).2.ipVersion = w.ipVersion := by rw [hopt]
  have hpaths : (insertAll v networks w).2.reservedPaths = w.reservedPaths := by rw [hopt]
  cases hq : addrPath w.ipVersion ip with
  | none =>
    have hno : ¬ InRange w.ipVersion start stop ip := by
      rw [← covers_iff_inRange hexact]
      rintro ⟨net, hnet, hc⟩
      exact not_covers_of_accepts (hacc net hnet) hq hc
    rw [if_neg (fun hh => hno hh.1), get_of_addrPath_none hq,
      get_of_addrPath_none (by rw [hver, hq])]
  | some q =>
    have hlen := length_addrPath hq
    have hres : (node false l r).eval q = .reserved ↔
        w.reservedNetworks = .excluded ∧ ReservedAddr w.ipVersion ip := by
      rw [h.reserved_iff q hlen]
      by_cases hex : w.reservedNetworks = .excluded
      · rw [reservedAddr_iff_path hex hq]
        simp [hex]
      · simp [WriterBuilder.reservedPaths, hex]
    rw [h'.get (by rw [hver, hq]), h.get hq]
    by_cases hr : (node false l r).eval q = .reserved
    · have hr' : (node false l' r').eval q = .reserved := by
        rw [h'.reserved_iff q (by rw [hver, hlen]), hpaths, ← h.reserved_iff q hlen, hr]
      rw [if_neg (fun hh => hh.2 (hres.mp hr)), hr, hr']
    · rw [hval ip q hq hr]
      by_cases hc : ∃ net ∈ networks, net.Covers w.ipVersion ip
      · rw [if_pos hc, if_pos ⟨(covers_iff_inRange hexact ip).mp hc, fun hh => hr (hres.mpr hh)⟩]
      · rw [if_neg hc, if_neg (fun hh => hc ((covers_iff_inRange hexact ip).mpr hh.1))]

/-- A range is cut into its networks exactly, and an accepted one sets exactly its addresses, unless
the range is a partial one from `::`. -/
theorem range_exact_iff {start stop : IpAddr} (hle : start.Le stop) :
    ((∃ networks, rangeToNetworks start stop = .ok networks ∧ RangeExact start stop networks) ∧
      ∀ (w : Writer) (v : Value), w.Reachable → (insertRange start stop v w).1 = .ok () →
        ∀ ip, (insertRange start stop v w).2.get ip =
          if InRange w.ipVersion start stop ip ∧
            ¬ (w.reservedNetworks = .excluded ∧ ReservedAddr w.ipVersion ip) then .ok (some v)
          else w.get ip) ↔
      ¬ PartialFromZero start stop := by
  rcases rangeToNetworks_cases hle with ⟨networks, hnets, hexact, hno⟩ | ⟨herr, hbug⟩
  · refine ⟨fun _ => hno, fun _ => ⟨⟨networks, hnets, hexact⟩, fun w v hw hok ip => ?_⟩⟩
    exact get_insertRange hnets hexact hw v hok ip
  · refine ⟨fun h => ?_, fun h => absurd hbug h⟩
    obtain ⟨networks, hnets, -⟩ := h.1
    rw [herr] at hnets
    cases hnets

omit [Ipnet] in
theorem range_exact_iff_24 :
    let _ := Ipnet.std
    ∃ networks, rangeToNetworks (.v4 0x01020300) (.v4 0x010203FF) = .ok networks ∧
      RangeExact (.v4 0x01020300) (.v4 0x010203FF) networks := by
  intro _
  have hno : ¬ PartialFromZero (.v4 0x01020300) (.v4 0x010203FF) := fun h => by cases h.1
  have hle : IpAddr.Le (.v4 0x01020300) (.v4 0x010203FF) := by
    show (0x01020300 : BitVec 32).toNat ≤ (0x010203FF : BitVec 32).toNat
    decide
  exact ((range_exact_iff hle).mpr hno).1

omit [Ipnet] in
/-- The range of the one address `::` has no networks: the computation overflows. -/
theorem range_from_zero_overflows : rangeToNetworks (.v6 0) (.v6 0) = .error .panic ∧
    ¬ ∃ networks, rangeToNetworks (.v6 0) (.v6 0) = .ok networks ∧
      RangeExact (.v6 0) (.v6 0) networks := by
  have herr : rangeToNetworks (.v6 0) (.v6 0) = .error .panic := by
    have hle : IpAddr.Le (.v6 0) (.v6 0) := Nat.le_refl _
    rcases rangeToNetworks_cases hle with ⟨_, _, _, hno⟩ | ⟨herr, -⟩
    · exact absurd ⟨rfl, by decide⟩ hno
    · exact herr
  refine ⟨herr, ?_⟩
  rintro ⟨networks, hnets, -⟩
  rw [herr] at hnets
  cases hnets

end Range

end Writer

end MmdbWriter
