import MmdbWriter.Proofs.Settles

/-!
# Inserts that fail

The inserts at one network check it before they change anything. A range is inserted block by block:
where a later block is rejected, the earlier ones stay.
-/

namespace MmdbWriter

open BitTrie (leaf node)

/-- The errors of the checks before an insert. -/
def Error.Rejects : Error → Prop
  | .aliasedNetwork _ | .reservedNetwork _ | .ipv6InIpv4Tree _ | .invalidRange _ => True
  | .unsupportedValue _ | .serialize _ | .treeTooLarge _ _ _ | .load _ => False

theorem Leaf.apply_const_twice {α : Type} (v : α) (a : Leaf α) :
    (a.apply fun _ => some v).apply (fun _ => some v) = a.apply fun _ => some v := by
  cases a <;> rfl

namespace Writer

variable [Ipnet]

/-- The two writers answer every lookup alike and, the epoch pinned, write the same file. -/
def SameDatabase (w w' : Writer) : Prop :=
  (∀ ip, w'.get ip = w.get ip) ∧
    (w.buildEpoch.isSome → ∀ now now', w'.toBytes now' = w.toBytes now)

instance (w : Writer) (net : IpNet) : Decidable (w.Accepts net) :=
  inferInstanceAs (Decidable (_ ∧ _))

/-- The networks of a range before the first that the checks reject. -/
def precedingBlocks (w : Writer) (start stop : IpAddr) : List IpNet :=
  match rangeToNetworks start stop with
  | .ok networks => networks.takeWhile fun net => w.Accepts net
  | .error _ => []

/-- The addresses of the networks, reserved ones apart, all have the value. -/
def HoldsAt (w : Writer) (nets : List IpNet) (v : Value) : Prop :=
  ∀ net ∈ nets, ∀ ip, net.Covers w.ipVersion ip →
    ¬ (w.reservedNetworks = .excluded ∧ ReservedAddr w.ipVersion ip) → w.get ip = .ok (some v)

variable {w w' : Writer} {l r : BitTrie (Leaf Value)}

section One

/-- A single insert that is rejected leaves the writer it found. -/
theorem Settles.insertValue_rejected (h : w.Settles l r) {net : IpNet} {v : Value} {e : Error}
    (hres : insertValue net v w = (.error (.err e), w')) (he : e.Rejects) : w' = w := by
  have hstep := h.valueStep net v
  rw [hres] at hstep
  cases hstep with
  | rejected _ => rfl
  | full _ _ _ _ _ => exact he.elim

theorem Settles.insertWith_rejected {τ : Type} (h : w.Settles l r) {net : IpNet}
    {op : Option Value → τ → Option Value × τ} {t t' : τ} {e : Error}
    (hres : insertWith net op (w, t) = (.error (.err e), w', t')) (he : e.Rejects) : w' = w := by
  have hstep := h.withStep net op t
  rw [hres] at hstep
  cases hstep with
  | rejected _ => rfl
  | accepted _ _ _ _ _ hor =>
    rcases hor with hor | hor
    · cases hor
    · rw [fullFault, Except.error.injEq, Fault.err.injEq] at hor
      rw [hor] at he
      exact he.elim

theorem Settles.insertValueMerged_rejected (h : w.Settles l r) {net : IpNet} {v : Value}
    {strategy : MergeStrategy} {e : Error}
    (hres : insertValueMerged net v strategy w = (.error (.err e), w')) (he : e.Rejects) : w' = w := by
  have hwith : ∀ {f : Option Value → Option Value},
      insertWithFn net f w = (.error (.err e), w') → w' = w := by
    intro f hf
    unfold insertWithFn at hf
    rw [Prod.mk.injEq] at hf
    have hone : insertWith net (fun old t => (f old, t)) (w, ()) = (.error (.err e), w', ()) :=
      Prod.ext hf.1 (Prod.ext hf.2 rfl)
    exact h.insertWith_rejected hone he
  cases strategy with
  | replace => exact h.insertValue_rejected hres he
  | topLevelMerge => exact hwith hres
  | deepMerge => exact hwith hres

end One

section Range

/-- The blocks before a rejected one are inserted. -/
theorem insertAll_rejected (v : Value) : ∀ (nets : List IpNet) {w w' : Writer}
    {l r : BitTrie (Leaf Value)} {e : Error}, w.Settles l r →
    insertAll v nets w = (.error (.err e), w') → e.Rejects →
    insertAll v (nets.takeWhile fun net => w.Accepts net) w = (.ok (), w')
  | [], w, w', l, r, e, _, hres, _ => by simp [insertAll] at hres
  | net :: nets, w, w', l, r, e, h, hres, he => by
    have hstep := h.valueStep net v
    rw [insertAll_cons] at hres
    generalize hone : insertValue net v w = res at hstep hres
    cases hstep with
    | rejected hno =>
      rw [List.takeWhile_cons_of_neg (by simpa using hno)]
      simp only [Prod.mk.injEq] at hres
      rw [← hres.2]
      rfl
    | @done w₁ l₁ r₁ p hacc hp hopt h₁ heval hmono =>
      have hsame : (fun net => decide (w.Accepts net)) = fun net => decide (w₁.Accepts net) :=
        funext fun n => decide_eq_decide.mpr (accepts_congr hopt n).symm
      rw [List.takeWhile_cons_of_pos (by simpa using hacc), insertAll_cons, hone, hsame]
      exact insertAll_rejected v nets h₁ hres he
    | full l₁ r₁ _ _ _ =>
      simp only [fullFault, Prod.mk.injEq, Except.error.injEq, Fault.err.injEq] at hres
      rw [← hres.1] at he
      exact he.elim
    | panic => simp at hres

/-- Accepted inserts of one value answer at the addresses below their networks. -/
theorem Settles.insertAll_value (v : Value) : ∀ (nets : List IpNet) {w w' : Writer}
    {l r : BitTrie (Leaf Value)}, w.Settles l r → insertAll v nets w = (.ok (), w') →
    ∃ l' r', w'.Settles l' r' ∧ w'.toWriterBuilder = w.toWriterBuilder ∧
      (∀ net ∈ nets, w.Accepts net) ∧ w.tree.nodes.length ≤ w'.tree.nodes.length ∧
      ∀ q, w.ipVersion.treeDepth ≤ q.length → (node false l' r').eval q =
        if ∃ net ∈ nets, ∃ p, netPath w.ipVersion net = some p ∧ p <+: q
        then ((node false l r).eval q).apply fun _ => some v else (node false l r).eval q
  | [], w, w', l, r, h, hres => by
    simp only [insertAll, Exec.pure_apply, Prod.mk.injEq, true_and] at hres
    subst hres
    exact ⟨l, r, h, rfl, by simp, le_rfl, fun _ _ => by simp⟩
  | net :: nets, w, w', l, r, h, hres => by
    have hstep := h.valueStep net v
    rw [insertAll_cons] at hres
    generalize insertValue net v w = res at hstep hres
    cases hstep with
    | rejected _ => simp at hres
    | full _ _ _ _ _ => simp at hres
    | panic => simp at hres
    | @done w₁ l₁ r₁ p hacc hp hopt h₁ heval hmono =>
      obtain ⟨l', r', h', hopt', hacc', hmono', heval'⟩ := insertAll_value v nets h₁ hres
      have hver : w₁.ipVersion = w.ipVersion := by rw [hopt]
      refine ⟨l', r', h', hopt'.trans hopt, ?_, hmono.trans hmono', fun q hq => ?_⟩
      · intro n hn
        rcases List.mem_cons.mp hn with rfl | hn
        · exact hacc
        · exact (accepts_congr hopt n).mp (hacc' n hn)
      · rw [heval' q (by rw [hver]; exact hq), heval q hq, hver]
        simp only [List.mem_cons, exists_eq_or_imp, hp, Option.some.injEq, exists_eq_left']
        by_cases hfirst : p <+: q <;>
          by_cases hrest : ∃ n ∈ nets, ∃ p, netPath w.ipVersion n = some p ∧ p <+: q <;>
          simp [hfirst, hrest, Leaf.apply_const_twice]

theorem exists_addrPath_of_covers {net : IpNet} (hacc : w.Accepts net) {ip : IpAddr}
    (hc : net.Covers w.ipVersion ip) : ∃ p q, netPath w.ipVersion net = some p ∧
      addrPath w.ipVersion ip = some q ∧ p <+: q := by
  obtain ⟨p, hp⟩ := Option.isSome_iff_exists.mp hacc.2
  cases hq : addrPath w.ipVersion ip with
  | none => exact absurd hc (not_covers_of_accepts hacc hq)
  | some q => exact ⟨p, q, hp, rfl, (covers_iff_path hp hq).mp hc⟩

omit [Ipnet] in
theorem Settles.reserved_append_iff (h : w.Settles l r) {ip : IpAddr} {q : List Bool}
    (hq : addrPath w.ipVersion ip = some q) (s : List Bool) :
    (node false l r).eval (q ++ s) = .reserved ↔
      w.reservedNetworks = .excluded ∧ ReservedAddr w.ipVersion ip := by
  have hlen := length_addrPath hq
  rw [h.reserved_iff _ (by rw [List.length_append]; omega)]
  by_cases hex : w.reservedNetworks = .excluded
  · rw [reservedAddr_iff_path hex hq]
    simp only [hex, true_and]
    refine exists_congr fun p => and_congr_right fun hp => ?_
    have hle : p.length ≤ q.length := by
      unfold WriterBuilder.reservedPaths at hp
      rw [if_pos hex] at hp
      obtain ⟨net, -, hnet⟩ := List.mem_filterMap.mp hp
      rw [hlen]
      exact length_netPath_le hnet
    exact ⟨fun hpre => List.prefix_of_prefix_length_le hpre (List.prefix_append q s) hle,
      fun hpre => hpre.trans (List.prefix_append q s)⟩
  · simp [WriterBuilder.reservedPaths, hex]

omit [Ipnet] in
theorem apply_const_of_ne {v : Value} {a : Leaf Value} (hr : a ≠ .reserved) (ha : a ≠ .aliased) :
    (a.apply fun _ => some v) = .data v := by
  cases a <;> first | rfl | exact absurd rfl hr | exact absurd rfl ha

/-- Accepted inserts of one value change nothing exactly where the value was before. -/
theorem Settles.sameDatabase_iff (h : w.Settles l r) (hind : w.tree.Indexed)
    (hind' : w'.tree.Indexed) {nets : List IpNet} {v : Value}
    (hres : insertAll v nets w = (.ok (), w')) (hroom : w'.tree.nodes.length + 144 < 2 ^ 32) :
    w.SameDatabase w' ↔ w.HoldsAt nets v := by
  obtain ⟨l', r', h', hopt, hacc, hmono, heval⟩ := h.insertAll_value v nets hres
  have hver : w'.ipVersion = w.ipVersion := by rw [hopt]
  constructor
  · rintro ⟨hget, -⟩ net hnet ip hc hno
    obtain ⟨p, q, hp, hq, hpre⟩ := exists_addrPath_of_covers (hacc net hnet) hc
    have hlq := length_addrPath hq
    rw [← hget ip, h'.get_eq_some_iff (by omega) (by rw [hver, hq]) v]
    intro s
    rw [heval _ (by rw [List.length_append]; omega),
      if_pos ⟨net, hnet, p, hp, hpre.trans (List.prefix_append q s)⟩]
    exact apply_const_of_ne (fun hr => hno ((h.reserved_append_iff hq s).mp hr)) (h.not_aliased _)
  · intro hhold
    have hlong : ∀ q, w.ipVersion.treeDepth ≤ q.length →
        (node false l' r').eval q = (node false l r).eval q := by
      intro q hlen
      rw [heval q hlen]
      split_ifs with hex
      · obtain ⟨net, hnet, p, hp, hpre⟩ := hex
        obtain ⟨ip, hip⟩ := exists_addrPath w.ipVersion
          (show (q.take w.ipVersion.treeDepth).length = w.ipVersion.treeDepth by
            rw [List.length_take]; omega)
        have happ := List.take_append_drop w.ipVersion.treeDepth q
        have hc : net.Covers w.ipVersion ip := by
          have hle := length_netPath_le hp
          exact (covers_iff_path hp hip).mpr
            (List.prefix_of_prefix_length_le hpre (List.take_prefix _ _) (by rw [List.length_take]; omega))
        rw [← happ]
        by_cases hr : w.reservedNetworks = .excluded ∧ ReservedAddr w.ipVersion ip
        · rw [(h.reserved_append_iff hip _).mpr hr]
          rfl
        · rw [(h.get_eq_some_iff (by omega) hip v).mp (hhold net hnet ip hc hr)]
          rfl
      · rfl
    have hmap : ∀ q, (node false l r).eval q = (node false l' r').eval q := by
      intro q
      rw [← BitTrie.eval_append_replicate _ q w.ipVersion.treeDepth,
        ← BitTrie.eval_append_replicate (node false l' r') q w.ipVersion.treeDepth, hlong _ (by simp)]
    have hred := h.reduced (by omega)
    have hred' := h'.reduced (by omega)
    refine ⟨fun ip => ?_, fun hepoch now now' => ?_⟩
    · cases hq : addrPath w.ipVersion ip with
      | none => rw [get_of_addrPath_none hq, get_of_addrPath_none (by rw [hver, hq])]
      | some q =>
        have hne : q ≠ [] := by
          have := length_addrPath hq
          have := (treeDepth_le w.ipVersion).1
          exact List.ne_nil_of_length_pos (by omega)
        rw [h.get hq, h'.get (by rw [hver, hq]),
          value_coverAt_congr h.unpinned h'.unpinned hred hred' hmap hne]
    · have hbuilt : w.builtTrie (node false l r) = w'.builtTrie (node false l' r') := by
        rw [hopt]
        refine w.builtTrie_congr h.unpinned h'.unpinned hred hred' hmap fun hv => ?_
        obtain ⟨q, hlen, hno⟩ := exists_unreserved hv
        exact ⟨q, fun hr => hno ((h.reserved_iff _ (by rw [hlen, hv]; rfl)).mp hr)⟩
      exact (toBytes_eq_of_builtTrie h.models h'.models h.unpinned h'.unpinned h.not_aliased
        h'.not_aliased hind hind' hbuilt hopt hepoch (by omega) hroom now now').symm

omit [Ipnet] in
theorem toBytes_now (hepoch : w.buildEpoch.isSome) (now now' : SystemTime) :
    w.toBytes now' = w.toBytes now := by
  have hmeta : w.metadata now' = w.metadata now := by
    obtain ⟨e, he⟩ := Option.isSome_iff_exists.mp hepoch
    funext tree size
    unfold metadata buildEpochSecs
    rw [he]
    rfl
  unfold toBytes
  rw [hmeta]

theorem sameDatabase_refl (w : Writer) : w.SameDatabase w :=
  ⟨fun _ => rfl, fun hepoch now now' => toBytes_now hepoch now now'⟩

/-- A rejected call leaves the database as it was: always one at a single network, and one at a range
exactly when the blocks before the rejected one had the value before. -/
theorem rejected_iff (hw : w.Grown) :
    (∀ {net v w' e}, insertValue net v w = (.error (.err e), w') → e.Rejects → w.SameDatabase w') ∧
    (∀ {τ : Type} {net op w' e} {t t' : τ}, insertWith net op (w, t) = (.error (.err e), w', t') →
      e.Rejects → w.SameDatabase w') ∧
    (∀ {net v strategy w' e}, insertValueMerged net v strategy w = (.error (.err e), w') →
      e.Rejects → w.SameDatabase w') ∧
    ∀ {start stop v w' e}, insertRange start stop v w = (.error (.err e), w') → e.Rejects →
      (w.precedingBlocks start stop = [] ∨ w'.tree.nodes.length + 144 < 2 ^ 32) →
      (w.SameDatabase w' ↔ w.HoldsAt (w.precedingBlocks start stop) v) := by
  obtain ⟨l, r, h⟩ := hw.settles
  refine ⟨fun hres he => ?_, fun hres he => ?_, fun hres he => ?_, fun {start stop v w' e} hres he hroom => ?_⟩
  · rw [h.insertValue_rejected hres he]
    exact sameDatabase_refl w
  · rw [h.insertWith_rejected hres he]
    exact sameDatabase_refl w
  · rw [h.insertValueMerged_rejected hres he]
    exact sameDatabase_refl w
  · have hgrown : w'.Grown := by
      have := Grown.insertRange hw start stop v (by rw [hres]; simp)
      rwa [hres] at this
    unfold precedingBlocks at hroom ⊢
    cases hnets : rangeToNetworks start stop with
    | error f =>
      rw [insertRange_error hnets, Prod.mk.injEq] at hres
      rw [← hres.2]
      exact iff_of_true (sameDatabase_refl w) (by simp [HoldsAt])
    | ok nets =>
      rw [insertRange_eq hnets] at hres
      rw [hnets] at hroom
      have hpre := insertAll_rejected v nets h hres he
      dsimp only at hroom ⊢
      rcases hroom with hnil | hroom
      · rw [hnil] at hpre ⊢
        simp only [insertAll, Exec.pure_apply, Prod.mk.injEq, true_and] at hpre
        rw [← hpre]
        exact iff_of_true (sameDatabase_refl w) (by simp [HoldsAt])
      · exact h.sameDatabase_iff hw.tree.shaped.indexed hgrown.tree.shaped.indexed hpre hroom

omit [Ipnet] in
/-- A range that begins in reserved space. -/
theorem rejected_iff_private :
    let _ := Ipnet.std
    ∃ w : Writer, ({ databaseType := "City", ipVersion := .v4, reservedNetworks := .excluded } :
        WriterBuilder).build = .ok w ∧
      (insertRange (.v4 0x0A000000) (.v4 0x0A00017F) (.string "a") w).1 =
        .error (.err (.reservedNetwork (.v4 ⟨0x0A000000, 24, by decide⟩))) ∧
      w.SameDatabase (insertRange (.v4 0x0A000000) (.v4 0x0A00017F) (.string "a") w).2 := by
  intro _
  obtain ⟨w, -, -, hb, -⟩ := build_inv
    { databaseType := "City", ipVersion := .v4, reservedNetworks := .excluded }
  have hrun : (({ databaseType := "City", ipVersion := .v4, reservedNetworks := .excluded } :
      WriterBuilder).build.toOption.map fun w =>
        ((insertRange (.v4 0x0A000000) (.v4 0x0A00017F) (.string "a") w).1,
          w.precedingBlocks (.v4 0x0A000000) (.v4 0x0A00017F))) =
      some (.error (.err (.reservedNetwork (.v4 ⟨0x0A000000, 24, by decide⟩))), []) := by
    decide +kernel
  rw [hb] at hrun
  simp only [Except.toOption, Option.map_some, Option.some.injEq, Prod.mk.injEq] at hrun
  refine ⟨w, hb, hrun.1, ?_⟩
  exact ((rejected_iff (Grown.build hb)).2.2.2 (Prod.ext hrun.1 rfl) trivial (Or.inl hrun.2)).mpr
    (by rw [hrun.2]; simp [HoldsAt])

omit [Ipnet] in
/-- The second block of this range is reserved, and the first one is there after the error. -/
theorem not_sameDatabase_crossing :
    let _ := Ipnet.std
    ∃ w : Writer, ({ databaseType := "City", ipVersion := .v4, reservedNetworks := .excluded } :
        WriterBuilder).build = .ok w ∧
      (insertRange (.v4 0x09FFFF00) (.v4 0x0A0000FF) (.string "a") w).1 =
        .error (.err (.reservedNetwork (.v4 ⟨0x0A000000, 24, by decide⟩))) ∧
      ¬ w.SameDatabase (insertRange (.v4 0x09FFFF00) (.v4 0x0A0000FF) (.string "a") w).2 := by
  intro _
  obtain ⟨w, -, -, hb, -⟩ := build_inv
    { databaseType := "City", ipVersion := .v4, reservedNetworks := .excluded }
  have hrun : (({ databaseType := "City", ipVersion := .v4, reservedNetworks := .excluded } :
      WriterBuilder).build.toOption.map fun w =>
        ((insertRange (.v4 0x09FFFF00) (.v4 0x0A0000FF) (.string "a") w).1,
          (insertRange (.v4 0x09FFFF00) (.v4 0x0A0000FF) (.string "a") w).2.get (.v4 0x09FFFF01),
          w.get (.v4 0x09FFFF01))) =
      some (.error (.err (.reservedNetwork (.v4 ⟨0x0A000000, 24, by decide⟩))),
        .ok (some (.string "a")), .ok none) := by
    decide +kernel
  rw [hb] at hrun
  simp only [Except.toOption, Option.map_some, Option.some.injEq, Prod.mk.injEq] at hrun
  refine ⟨w, hb, hrun.1, fun hsame => ?_⟩
  have hget := hsame.1 (.v4 0x09FFFF01)
  rw [hrun.2.1, hrun.2.2] at hget
  cases hget

end Range

end Writer

end MmdbWriter
