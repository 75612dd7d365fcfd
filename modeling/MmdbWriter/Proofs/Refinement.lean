import MmdbWriter.Proofs.Invariant

/-!
# A writer is a map from addresses to values

What `get` returns for an address is what the accepted inserts whose network covers it make of
nothing, one after the other. A writer that excludes the reserved networks is the same map with
these cut out.
-/

namespace MmdbWriter

open BitTrie (leaf node)

namespace Writer

variable [Ipnet]

theorem Inv.get {w : Writer} {l r : BitTrie (Leaf Value)} (h : w.Inv l r) {ip : IpAddr}
    {q : List Bool} (hq : addrPath w.ipVersion ip = some q) :
    w.get ip = .ok ((node false l r).eval q).value :=
  get_eq h.models h.height_lt.1 h.height_lt.2 h.not_aliased hq

/-- An accepted network covers no address outside the address space of the writer. -/
theorem not_covers_of_accepts {w : Writer} {net : IpNet} (h : w.Accepts net) {ip : IpAddr}
    (hq : addrPath w.ipVersion ip = none) : ¬ net.Covers w.ipVersion ip := by
  have hsome := h.2
  cases hver : w.ipVersion <;> rw [hver] at hq hsome <;> cases ip <;> cases net <;>
    simp [addrPath, netPath, IpNet.Covers] at hq hsome ⊢

theorem accepts_congr {w w' : Writer} (h : w'.toWriterBuilder = w.toWriterBuilder) (net : IpNet) :
    w'.Accepts net ↔ w.Accepts net := by
  unfold Accepts ensureInsertable
  rw [h]

/-- What the inserts that cover an address make of a value, in their order. -/
def foldOps (ipVersion : IpVersion) (inserts : List Insert) (ip : IpAddr) (old : Option Value) :
    Option Value :=
  (inserts.filter fun i => i.net.Covers ipVersion ip).foldl (fun old i => i.op old) old

omit [Ipnet] in
theorem foldOps_cons (ipVersion : IpVersion) (i : Insert) (inserts : List Insert) (ip : IpAddr)
    (old : Option Value) : foldOps ipVersion (i :: inserts) ip old =
      foldOps ipVersion inserts ip (if i.net.Covers ipVersion ip then i.op old else old) := by
  unfold foldOps
  by_cases h : i.net.Covers ipVersion ip
  · rw [List.filter_cons_of_pos (by simpa using h), List.foldl_cons, if_pos h]
  · rw [List.filter_cons_of_neg (by simpa using h), if_neg h]

/-- No insert of the run finds the vector of nodes or the pool full. -/
def NeverFull : List Insert → Writer → Prop
  | [], _ => True
  | i :: inserts, w =>
    ((i.exec w).1 = .ok () ∨ (i.exec w).2.InLimits) ∧ NeverFull inserts (i.exec w).2

theorem neverFull_of_limits : ∀ {inserts : List Insert} {w : Writer},
    RunInLimits (inserts.map .insert) w → NeverFull inserts w
  | [], _, _ => trivial
  | [_], _, h => ⟨Or.inr h.2, trivial⟩
  | _ :: _ :: _, _, h => ⟨Or.inr h.2.1, neverFull_of_limits h.2⟩

theorem neverFull_of_ok : ∀ {inserts : List Insert} {w : Writer},
    (∀ res ∈ (run (inserts.map .insert) w).1, res = .ok ()) → NeverFull inserts w
  | [], _, _ => trivial
  | _ :: _, _, h =>
    ⟨Or.inl (h _ List.mem_cons_self), neverFull_of_ok fun res hres =>
      h res (List.mem_cons_of_mem _ hres)⟩

theorem accepted_of_ok : ∀ {inserts : List Insert} {w : Writer},
    (∀ res ∈ (run (inserts.map .insert) w).1, res = .ok ()) → accepted inserts w = inserts
  | [], _, _ => rfl
  | i :: inserts, w, h => by
    have hi : (i.exec w).1 = .ok () := h _ List.mem_cons_self
    have ih : accepted inserts (i.exec w).2 = inserts :=
      accepted_of_ok fun res hres => h res (List.mem_cons_of_mem _ hres)
    rw [accepted, if_pos hi, ih]

/-- One step of the refinement: an accepted insert is one operation of the fold at every address
that is not reserved, and a rejected one is none. -/
theorem Inv.insert_value {w : Writer} {l r : BitTrie (Leaf Value)} (h : w.Inv l r) (i : Insert)
    (hroom : (i.exec w).1 = .ok () ∨ (i.exec w).2.InLimits) : ∃ l' r', (i.exec w).2.Inv l' r' ∧
      (i.exec w).2.toWriterBuilder = w.toWriterBuilder ∧
      ((i.exec w).1 = .ok () ↔ w.Accepts i.net) ∧
      ∀ ip q, addrPath w.ipVersion ip = some q → (node false l r).eval q ≠ .reserved →
        ((node false l' r').eval q).value =
          if (i.exec w).1 = .ok () ∧ i.net.Covers w.ipVersion ip
          then i.op ((node false l r).eval q).value else ((node false l r).eval q).value := by
  have hstep := h.insert_step i
  generalize i.exec w = res at hstep hroom
  cases hstep with
  | rejected hno =>
    exact ⟨l, r, h, rfl, by simp [hno], fun ip q _ _ => by simp⟩
  | done l' r' p hacc hp hopt hinv heval =>
    refine ⟨l', r', hinv, hopt, by simp [hacc], fun ip q hq hres => ?_⟩
    rw [heval q (length_addrPath hq)]
    by_cases hc : i.net.Covers w.ipVersion ip
    · rw [if_pos ((covers_iff_path hp hq).mp hc), if_pos ⟨rfl, hc⟩,
        Leaf.value_apply i.op hres (h.not_aliased q)]
    · rw [if_neg (fun hpq => hc ((covers_iff_path hp hq).mpr hpq)), if_neg (fun hh => hc hh.2)]
  | full l' r' hacc hopt hinv heval hlen =>
    exact absurd (hroom.resolve_left (by simp)).1 (Nat.not_lt.mpr hlen)
  | panic hpool => exact absurd (hroom.resolve_left (by simp)).2 (Nat.not_lt.mpr hpool)

/-- The refinement over a whole run. -/
theorem Inv.run_value : ∀ (inserts : List Insert) {w : Writer} {l r : BitTrie (Leaf Value)},
    w.Inv l r → NeverFull inserts w →
    ∃ l' r', (run (inserts.map .insert) w).2.Inv l' r' ∧
      (run (inserts.map .insert) w).2.toWriterBuilder = w.toWriterBuilder ∧
      ∀ ip q, addrPath w.ipVersion ip = some q → (node false l r).eval q ≠ .reserved →
        ((node false l' r').eval q).value =
          foldOps w.ipVersion (accepted inserts w) ip ((node false l r).eval q).value
  | [], w, l, r, h, _ => ⟨l, r, h, rfl, fun _ _ _ _ => rfl⟩
  | i :: inserts, w, l, r, h, hroom => by
    obtain ⟨l₁, r₁, h₁, hopt, -, hval⟩ := h.insert_value i hroom.1
    obtain ⟨l', r', h', hopt', hval'⟩ := run_value inserts h₁ hroom.2
    have hver : (i.exec w).2.ipVersion = w.ipVersion := by rw [hopt]
    refine ⟨l', r', h', hopt'.trans hopt, fun ip q hq hres => ?_⟩
    have hq₁ : addrPath (i.exec w).2.ipVersion ip = some q := by rw [hver, hq]
    have hlen := length_addrPath hq
    have hpaths : (i.exec w).2.reservedPaths = w.reservedPaths := by rw [hopt]
    have hres₁ : (node false l₁ r₁).eval q ≠ .reserved := by
      rw [Ne, h₁.reserved_iff q (by rw [hver, hlen]), hpaths, ← h.reserved_iff q hlen]
      exact hres
    rw [hval' ip q hq₁ hres₁, hval ip q hq hres, hver, accepted]
    by_cases hok : (i.exec w).1 = .ok ()
    · rw [if_pos hok, foldOps_cons]
      simp only [hok, true_and]
    · rw [if_neg hok, if_neg (fun hh => hok hh.1)]

theorem accepts_of_mem_accepted : ∀ (inserts : List Insert) {w : Writer}
    {l r : BitTrie (Leaf Value)}, w.Inv l r → NeverFull inserts w →
    ∀ i ∈ accepted inserts w, w.Accepts i.net
  | [], w, l, r, _, _, i, hi => by simp [accepted] at hi
  | j :: inserts, w, l, r, h, hroom, i, hi => by
    obtain ⟨l₁, r₁, h₁, hopt, hacc, -⟩ := h.insert_value j hroom.1
    have ih : ∀ i ∈ accepted inserts (j.exec w).2, w.Accepts i.net := fun i hi =>
      (accepts_congr hopt i.net).mp (accepts_of_mem_accepted inserts h₁ hroom.2 i hi)
    rw [accepted] at hi
    split_ifs at hi with hok
    · rcases List.mem_cons.mp hi with rfl | hi
      · exact hacc.mp hok
      · exact ih i hi
    · exact ih i hi

/-- With the reserved networks included, `get` is the fold of the accepted inserts that cover the
address. -/
theorem get_run_eq_fold {b : WriterBuilder} (hb : b.reservedNetworks = .included) {w : Writer}
    (hw : b.build = .ok w) (inserts : List Insert) (hlim : RunInLimits (inserts.map .insert) w)
    (ip : IpAddr) : (run (inserts.map .insert) w).2.get ip =
      .ok (((accepted inserts w).filter fun i => i.net.Covers b.ipVersion ip).foldl
        (fun old i => i.op old) none) := by
  obtain ⟨w', l, r, hb', hopt, hinv, hnone, -⟩ := build_inv b
  rw [hw, Except.ok.injEq] at hb'
  subst hb'
  have hver : w.ipVersion = b.ipVersion := by rw [hopt]
  have hroom := neverFull_of_limits hlim
  obtain ⟨l', r', hinv', hopt', hval⟩ := Inv.run_value inserts hinv hroom
  have hver' : (run (inserts.map .insert) w).2.ipVersion = w.ipVersion := by rw [hopt']
  cases hq : addrPath w.ipVersion ip with
  | none =>
    rw [get_of_addrPath_none (by rw [hver', hq])]
    have hnil : (accepted inserts w).filter (fun i => i.net.Covers b.ipVersion ip) = [] := by
      rw [List.filter_eq_nil_iff]
      intro i hi
      have := not_covers_of_accepts (accepts_of_mem_accepted inserts hinv hroom i hi) hq
      rw [hver] at this
      simpa using this
    rw [hnil]
    rfl
  | some q =>
    have hno : (node false l r).eval q ≠ .reserved := by
      rw [Ne, hinv.reserved_iff q (length_addrPath hq)]
      have hres : w.reservedNetworks = .included := by rw [hopt]; exact hb
      simp [WriterBuilder.reservedPaths, hres]
    rw [hinv'.get (by rw [hver', hq]), hval ip q hq hno, hnone, hver]
    rfl

omit [Ipnet] in
/-- A network inside another one overwrites it there. -/
theorem get_run_eq_fold_nested :
    let _ := Ipnet.std
    ∃ w : Writer, ({ databaseType := "City", ipVersion := .v4 } : WriterBuilder).build = .ok w ∧
      (run ([.value (.v4 ⟨0x01000000, 8, by decide⟩) (.string "a"),
        .merged (.v4 ⟨0x01020300, 24, by decide⟩) (.string "b") .deepMerge].map .insert) w).2.get
          (.v4 0x01020304) = .ok (some (.string "b")) := by
  intro _
  refine ⟨_, rfl, (get_run_eq_fold
    (b := { databaseType := "City", ipVersion := .v4 }) rfl rfl _ ?_ _).trans (by decide +kernel)⟩
  exact ⟨⟨by decide +kernel, by decide +kernel⟩, ⟨by decide +kernel, by decide +kernel⟩,
    by decide +kernel, by decide +kernel⟩

section Masked

/-- The address lies in a reserved network of a database of the IP version. -/
def ReservedAddr (ipVersion : IpVersion) (ip : IpAddr) : Prop :=
  ∃ net ∈ Reserved.networks ipVersion, net.Covers ipVersion ip

instance (ipVersion : IpVersion) (ip : IpAddr) : Decidable (ReservedAddr ipVersion ip) :=
  inferInstanceAs (Decidable (∃ net ∈ _, _))

omit [Ipnet] in
theorem reservedAddr_iff_path {b : WriterBuilder} (hb : b.reservedNetworks = .excluded)
    {ip : IpAddr} {q : List Bool} (hq : addrPath b.ipVersion ip = some q) :
    ReservedAddr b.ipVersion ip ↔ ∃ p ∈ b.reservedPaths, p <+: q := by
  unfold ReservedAddr WriterBuilder.reservedPaths
  rw [if_pos hb]
  constructor
  · rintro ⟨net, hnet, hc⟩
    obtain ⟨p, hp⟩ := Option.isSome_iff_exists.mp (reserved_isSome b.ipVersion net hnet)
    exact ⟨p, List.mem_filterMap.mpr ⟨net, hnet, hp⟩, (covers_iff_path hp hq).mp hc⟩
  · rintro ⟨p, hp, hpq⟩
    obtain ⟨net, hnet, hpath⟩ := List.mem_filterMap.mp hp
    exact ⟨net, hnet, (covers_iff_path hpath hq).mpr hpq⟩

/-- What a writer that excludes the reserved networks accepts, one that includes them accepts. -/
theorem Accepts.included {w w' : Writer} {net : IpNet} (h : w.Accepts net)
    (hver : w'.ipVersion = w.ipVersion) (halias : w'.ipv4Aliasing = w.ipv4Aliasing)
    (hres : w'.reservedNetworks = .included) : w'.Accepts net := by
  obtain ⟨hens, hpath⟩ := h
  refine ⟨?_, by rwa [hver]⟩
  unfold ensureInsertable at hens ⊢
  rw [hver, halias, hres]
  split_ifs at hens ⊢ with h1 h2 h3
  · exact absurd h2.1 (by simp)
  · rfl

theorem accepted_included : ∀ (inserts : List Insert) {w w' : Writer}
    {l r l' r' : BitTrie (Leaf Value)}, w.Inv l r → w'.Inv l' r' →
    w'.ipVersion = w.ipVersion → w'.ipv4Aliasing = w.ipv4Aliasing →
    w'.reservedNetworks = .included → NeverFull inserts w' →
    (∀ res ∈ (run (inserts.map .insert) w).1, res = .ok ()) → accepted inserts w' = inserts
  | [], _, _, _, _, _, _, _, _, _, _, _, _, _ => rfl
  | i :: inserts, w, w', l, r, l', r', h, h', hver, halias, hres, hroom, hok => by
    have hi : (i.exec w).1 = .ok () := hok _ List.mem_cons_self
    obtain ⟨l₁, r₁, h₁, hopt, hacc, -⟩ := h.insert_value i (Or.inl hi)
    obtain ⟨l₂, r₂, h₂, hopt', hacc', -⟩ := h'.insert_value i hroom.1
    have hi' : (i.exec w').1 = .ok () := hacc'.mpr ((hacc.mp hi).included hver halias hres)
    rw [accepted, if_pos hi', accepted_included inserts h₁ h₂ (by rw [hopt, hopt', hver])
      (by rw [hopt, hopt', halias]) (by rw [hopt', hres]) hroom.2 fun res hr =>
        hok res (List.mem_cons_of_mem _ hr)]

/-- Excluding the reserved networks cuts them out of the map and changes nothing else. -/
theorem get_excluded_eq_masked {b : WriterBuilder} (hb : b.reservedNetworks = .excluded)
    {wE wI : Writer} (hE : b.build = .ok wE)
    (hI : ({ b with reservedNetworks := .included } : WriterBuilder).build = .ok wI)
    (inserts : List Insert)
    (hacc : ∀ res ∈ (run (inserts.map .insert) wE).1, res = .ok ())
    (hlim : RunInLimits (inserts.map .insert) wI) (ip : IpAddr) :
    (run (inserts.map .insert) wE).2.get ip =
      if ReservedAddr b.ipVersion ip then .ok none
      else (run (inserts.map .insert) wI).2.get ip := by
  obtain ⟨w₁, l₁, r₁, hb₁, hopt₁, hinv₁, hnone₁, -⟩ := build_inv b
  obtain ⟨w₂, l₂, r₂, hb₂, hopt₂, hinv₂, hnone₂, -⟩ :=
    build_inv { b with reservedNetworks := .included }
  rw [hE, Except.ok.injEq] at hb₁
  rw [hI, Except.ok.injEq] at hb₂
  subst hb₁ hb₂
  have hver₁ : wE.ipVersion = b.ipVersion := by rw [hopt₁]
  have hver₂ : wI.ipVersion = b.ipVersion := by rw [hopt₂]
  have hres₂ : wI.reservedNetworks = .included := by rw [hopt₂]
  have hroom := neverFull_of_limits hlim
  obtain ⟨l₁', r₁', hinv₁', hopt₁', hval₁⟩ := Inv.run_value inserts hinv₁ (neverFull_of_ok hacc)
  obtain ⟨l₂', r₂', hinv₂', hopt₂', hval₂⟩ := Inv.run_value inserts hinv₂ hroom
  have hver₁' : (run (inserts.map .insert) wE).2.ipVersion = b.ipVersion := by rw [hopt₁', hver₁]
  have hver₂' : (run (inserts.map .insert) wI).2.ipVersion = b.ipVersion := by rw [hopt₂', hver₂]
  cases hq : addrPath b.ipVersion ip with
  | none =>
    rw [get_of_addrPath_none (by rw [hver₁', hq]), get_of_addrPath_none (by rw [hver₂', hq])]
    split_ifs <;> rfl
  | some q =>
    have hlen := length_addrPath hq
    have hpaths : (run (inserts.map .insert) wE).2.reservedPaths = b.reservedPaths := by
      rw [hopt₁', hopt₁]
      rfl
    rw [hinv₁'.get (by rw [hver₁', hq]), hinv₂'.get (by rw [hver₂', hq])]
    have hiff := hinv₁'.reserved_iff q (by rw [hver₁', hlen])
    rw [hpaths, ← reservedAddr_iff_path hb hq] at hiff
    split_ifs with hr
    · rw [hiff.mpr hr]
      rfl
    · have hno₁ : (node false l₁ r₁).eval q ≠ .reserved := by
        rw [Ne, hinv₁.reserved_iff q (by rw [hver₁, hlen])]
        have hp : wE.reservedPaths = b.reservedPaths := by
          rw [hopt₁]
          rfl
        rwa [hp, ← reservedAddr_iff_path hb hq]
      have hno₂ : (node false l₂ r₂).eval q ≠ .reserved := by
        rw [Ne, hinv₂.reserved_iff q (by rw [hver₂, hlen])]
        simp [WriterBuilder.reservedPaths, hres₂]
      rw [hval₁ ip q (by rw [hver₁, hq]) hno₁, hval₂ ip q (by rw [hver₂, hq]) hno₂, hnone₁, hnone₂,
        accepted_of_ok hacc, hver₁, hver₂,
        accepted_included inserts hinv₁ hinv₂ (by rw [hver₁, hver₂]) (by rw [hopt₁, hopt₂]) hres₂
          hroom hacc]

omit [Ipnet] in
/-- Data around a reserved network stays out of it. -/
theorem get_excluded_eq_masked_broad :
    let _ := Ipnet.std
    let b : WriterBuilder :=
      { databaseType := "City", ipVersion := .v4, reservedNetworks := .excluded }
    let inserts : List Insert := [.value (.v4 ⟨0x08000000, 6, by decide⟩) (.string "a")]
    ∃ wE wI : Writer, b.build = .ok wE ∧
      ({ b with reservedNetworks := .included } : WriterBuilder).build = .ok wI ∧
      (run (inserts.map .insert) wE).2.get (.v4 0x0A000001) = .ok none ∧
      (run (inserts.map .insert) wE).2.get (.v4 0x0B000001) =
        (run (inserts.map .insert) wI).2.get (.v4 0x0B000001) := by
  intro _ b inserts
  have hsome : b.build.toOption.isSome = true := by decide +kernel
  obtain ⟨wE, hE⟩ : ∃ wE, b.build = .ok wE := by
    cases h : b.build with
    | ok wE => exact ⟨wE, rfl⟩
    | error e => rw [h] at hsome; cases hsome
  have hacc : (match b.build with
      | .ok w => (run (inserts.map .insert) w).1
      | .error _ => []) = [.ok ()] := by decide +kernel
  rw [hE] at hacc
  have hmask := fun ip => get_excluded_eq_masked (b := b) rfl hE rfl inserts
    (fun res hr => List.mem_singleton.mp (hacc ▸ hr))
    ⟨⟨by decide +kernel, by decide +kernel⟩, by decide +kernel, by decide +kernel⟩ ip
  refine ⟨wE, _, hE, rfl, (hmask _).trans (if_pos ?_), (hmask _).trans (if_neg ?_)⟩
  · decide +kernel
  · decide +kernel

end Masked

end Writer

end MmdbWriter
